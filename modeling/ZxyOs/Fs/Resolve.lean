/-
  ZxyOs.Fs.Resolve

  What `search_file` finds.

  The loop of `search_file` follows the components of the path in the naming graph, one look-up
  and one handle at a time.  It comes back with what the walk arrives at as long as the names it
  cuts off fit its buffer and the memory it asks for is granted (`Fs.Clear`).  It cuts off one
  name more than it looks up, and a path without a component, `"//"`, has nothing to come back
  with: `dir_e` has not been written.
-/

import ZxyOs.Fs.NameBuffers
import ZxyOs.Fs.Tree

namespace ZxyOs

open Lib Lib.Exec

/-! ## Cutting a path up -/

/-- `sub` is what is left of a path with the components `cs`. -/
def Remains (cs : List CStr) : Option CStr → Prop
  | none => cs = []
  | some q => q.head? = some slash ∧ components slash q = cs

/-- The next component fits the buffer it is copied into. -/
def HeadFits (cs : List CStr) : Prop := ∀ c ∈ cs.head?, c.length < 16

instance (cs : List CStr) : Decidable (HeadFits cs) := inferInstanceAs (Decidable (∀ c ∈ cs.head?, _))

section Cutting

variable {s t : Fs} {cs : List CStr} {sub : Option CStr} {q : CStr} {r : CStr × Option CStr}

theorem firstName_eq (h : components slash q.tail = cs) : firstName q = cs.headD [] := by
  rw [components_parse] at h
  split at h
  · next hname =>
    rw [← h, hname]
    rfl
  · rw [← h]
    rfl

theorem remains_restOf (h : components slash q.tail = cs) :
    Remains cs.tail (if restOf q = [] then none else some (restOf q)) := by
  have htail : components slash (restOf q) = cs.tail := by
    rw [← h, components_parse]
    split
    · next hname =>
      rw [restOf_eq_nil hname]
      rfl
    · rfl
  split
  · next hnil =>
    rw [hnil] at htail
    exact htail.symm
  · next hne => exact ⟨head?_restOf hne, htail⟩

theorem headFits_iff (hne : ∀ c ∈ cs, c ≠ []) : HeadFits cs ↔ (cs.headD []).length < 16 := by
  cases cs with
  | nil => exact ⟨fun _ => by decide, fun _ => nofun⟩
  | cons c cs => simp [HeadFits]

/-- `path_parse` of a path with a slash in front. -/
theorem returns_pathParse_abs (hhead : q.head? = some slash) :
    Returns (pathParse q) s r t ↔ HeadFits (components slash q) ∧
      r = ((components slash q).headD [], if restOf q = [] then none else some (restOf q)) ∧ s = t := by
  have hne : q ≠ [] := by
    rintro rfl
    cases hhead
  rw [returns_pathParse, headFits_iff fun c hc => (mem_components hc).1, ← components_tail hhead,
    firstName_eq (q := q) rfl]
  exact ⟨fun h => h.2, fun h => ⟨hne, h⟩⟩

/-- Cutting off the next component. -/
theorem pathNext_remains (h : Remains cs sub) (hfit : HeadFits cs) :
    ∃ sub', Returns (pathNext sub) s (cs.headD [], sub') s ∧ Remains cs.tail sub' := by
  cases sub with
  | none =>
    obtain rfl : cs = [] := h
    exact ⟨none, returns_pure.mpr ⟨rfl, rfl⟩, rfl⟩
  | some q =>
    obtain ⟨hhead, rfl⟩ := h
    exact ⟨_, (returns_pathParse_abs hhead).mpr ⟨hfit, rfl, rfl⟩, remains_restOf (components_tail hhead)⟩

theorem headFits_of_pathNext (h : Remains cs sub) (hr : Returns (pathNext sub) s r t) : HeadFits cs := by
  cases sub with
  | none =>
    obtain rfl : cs = [] := h
    exact nofun
  | some q =>
    obtain ⟨hhead, rfl⟩ := h
    exact ((returns_pathParse_abs hhead).mp hr).1

end Cutting

/-! ## The walk -/

/-- The type `search_file` reports. -/
def Lib.Child.fType {Node : Type} : Child Node → Nat
  | .dir _ => ftDir
  | .file _ => ftRegular

/-- The inode number it returns. -/
def Lib.Child.node {Node : Type} : Child Node → Node
  | .dir n => n
  | .file n => n

/-- The walk from directory `i`, entered from `above`, along `cs` goes through after `k` requests:
    the memory that is asked for is granted, and the names that are cut off fit their buffer.
    Where there is nothing to find, nothing is what is found without memory as well. -/
def Fs.Clear (s : Fs) : Nat → Nat → Nat → List CStr → Prop
  | k, above, _, [] => s.Grants k (1 + s.openRequests above)
  | k, _, i, c :: cs =>
    match s.names i c with
    | none => s.heap.full (s.heap.next + k) = true ∨ s.Grants k 2
    | some (.file _) => s.Grants k 2 ∧ HeadFits cs
    | some (.dir n) => s.Grants k 2 ∧ HeadFits cs ∧ s.Grants (k + 2) (1 + s.openRequests n) ∧
        Fs.Clear s (k + 2 + (1 + s.openRequests n)) i n cs

/-- The walk comes to a name that is there and gets no memory to look for it. -/
def Fs.Starved (s : Fs) : Nat → Nat → List CStr → Prop
  | _, _, [] => False
  | k, i, c :: cs =>
    match s.names i c with
    | none => False
    | some (.file _) => s.heap.full (s.heap.next + k) = true
    | some (.dir n) => s.heap.full (s.heap.next + k) = true ∨
        s.Grants k 2 ∧ HeadFits cs ∧ s.Grants (k + 2) (1 + s.openRequests n) ∧
          Fs.Starved s (k + 2 + (1 + s.openRequests n)) n cs

/-- The number of requests made in the end, where the way is clear. -/
noncomputable def Fs.asked (s : Fs) : Nat → Nat → Nat → List CStr → Nat
  | k, above, _, [] => k + (1 + s.openRequests above)
  | k, _, i, c :: cs =>
    match s.names i c with
    | none => if s.heap.full (s.heap.next + k) then k + 1 else k + 2
    | some (.file _) => k + 2
    | some (.dir n) => Fs.asked s (k + 2 + (1 + s.openRequests n)) i n cs

/-- The arrival of a walk after `k` requests, as the caller of `search_file` sees it. -/
structure Arrives (s t : Fs) (w : Arrival Nat CStr) (k : Nat) (out : Option Nat × PathSearchRecord) : Prop where
  number : out.1 = w.found.map Child.node
  kind : out.2.fType = (w.found.map Child.fType).getD ftUnkown
  searched : out.2.searchedPath = spell slash w.seen
  parent : Stands s t out.2.parentDir w.above k

/-- The search has given up where the walk does not. -/
structure Misses (s t : Fs) (w : Arrival Nat CStr) (out : Option Nat × PathSearchRecord) : Prop where
  number : out.1 = none
  kind : out.2.fType = ftUnkown
  searched : ∃ seen more, out.2.searchedPath = spell slash seen ∧ w.seen = seen ++ more ∧
    (w.found = none → more ≠ [])
  parent : ∃ i k, Stands s t out.2.parentDir i k

/-- What the loop of `search_file` carries along a walk that stands in directory `i`, entered from
    `above`, with the names `cs` to go. -/
structure Walking (s t : Fs) (st : SearchState) (k above i : Nat) (seen cs : List CStr) : Prop where
  stands : Stands s t st.parentDir i k
  dir : s.IsDir i
  dirAbove : s.IsDir above
  aboveNo : st.parentDirInode = above
  name : st.name = cs.headD []
  rest : Remains cs.tail st.subPath
  searched : st.searchedPath = spell slash seen
  names : ∀ c ∈ cs, c ≠ [] ∧ ∀ b ∈ c, b ≠ 0
  fits : HeadFits cs
  short : (spell slash (seen ++ cs)).length < 512
  last : cs = [] → ∃ e, st.dirE = some e ∧ e.iNo = i

section Search

variable {s t t' : Fs} {st : SearchState} {k above i n : Nat} {seen cs : List CStr} {c : CStr}
  {e : DirEntry} {out : Option Nat × PathSearchRecord}

theorem Walking.nameOk (h : Walking s t st k above i seen (c :: cs)) : DirEntry.NameOk c where
  pos := List.length_pos_of_ne_nil (h.names c List.mem_cons_self).1
  lt := h.fits c rfl
  noNul := (h.names c List.mem_cons_self).2

theorem spell_concat (seen : List CStr) (c : CStr) : spell slash seen ++ slash :: c = spell slash (seen ++ [c]) := by
  rw [spell_append, spell_cons, spell_nil, List.append_nil]

/-- The path examined so far is short enough for the next component. -/
theorem Walking.searched_lt (h : Walking s t st k above i seen (c :: cs)) : st.searchedPath.length < 512 := by
  have hshort := h.short
  rw [spell_append, List.length_append] at hshort
  rw [h.searched]
  omega

/-- Looking the next name up, where it is there and there is memory. -/
theorem Walking.finds (h : Walking s t st k above i seen (c :: cs)) (hs : s.TreeOk) (he : e ∈ s.entries i)
    (hfn : e.filename = c) (hg : s.Grants k 2) (hfit : HeadFits cs) :
    ∃ t₁ sub, Returns (searchDirEntry st.parentDir c) t (some e) t₁ ∧ Stands s t₁ st.parentDir i (k + 2) ∧
      Returns (pathNext st.subPath) t₁ (cs.headD [], sub) t₁ ∧ Remains cs.tail sub := by
  obtain ⟨r, t₁, hsearch⟩ := h.stands.looks hs h.dir h.nameOk (Or.inr hg)
  rcases h.stands.lookup hs h.dir h.nameOk hsearch with ⟨hfull, -, -⟩ | ⟨-, hst, hiff⟩
  · rw [← Nat.add_zero k, hg 0 (by decide)] at hfull
    cases hfull
  · obtain rfl := (hiff e).mpr ⟨he, hfn⟩
    obtain ⟨sub, hnext, hrest⟩ := pathNext_remains (s := t₁) h.rest hfit
    exact ⟨t₁, sub, hsearch, hst, hnext, hrest⟩

/-- Where nothing is looked up the search is over. -/
theorem Walking.fails {t₁ : Fs} (h : Walking s t st k above i seen (c :: cs)) (fuel : Nat)
    (hsearch : Returns (searchDirEntry st.parentDir c) t none t₁) :
    Returns (searchLoop (fuel + 1) st) t (none,
      { searchedPath := spell slash (seen ++ [c]), parentDir := st.parentDir, fType := ftUnkown }) t₁ := by
  have hname : st.name = c := h.name
  have hne : st.name ≠ [] := by
    rw [hname]
    exact (h.names c List.mem_cons_self).1
  have hassert : Returns (assert (st.searchedPath.length < 512)) t () t :=
    (returns_assert _ _).mpr ⟨h.searched_lt, rfl⟩
  simp only [searchLoop]
  rw [if_neg hne, hname, returns_bind_iff hassert, returns_bind_iff hsearch, h.searched, spell_concat]
  exact returns_pure.mpr ⟨rfl, rfl⟩

/-- The step into a directory. -/
theorem Walking.enter (h : Walking s t st k above i seen (c :: cs)) (hs : s.TreeOk) (he : e ∈ s.entries i)
    (hfn : e.filename = c) (hty : e.fType = ftDir) (hg : s.Grants k 2) (hfit : HeadFits cs)
    (hopen : s.Grants (k + 2) (1 + s.openRequests e.iNo)) :
    ∃ t₁ st', Walking s t₁ st' (k + 2 + (1 + s.openRequests e.iNo)) i e.iNo (seen ++ [c]) cs ∧
      ∀ fuel out t', Returns (searchLoop (fuel + 1) st) t out t' ↔ Returns (searchLoop fuel st') t₁ out t' := by
  obtain ⟨t₁, sub, hsearch, hst₁, hnext, hrest⟩ := h.finds hs he hfn hg hfit
  obtain ⟨a, v, ha, hv, hno⟩ := hst₁.inode hs h.dir
  obtain ⟨t₂, hclose, rfl⟩ := hst₁.close
  obtain ⟨p, t₃, hin, hst₃⟩ := Stands.opens hs (hs.node _ (h.dir.child he hty)).number hopen
  refine ⟨t₃, { name := cs.headD [], subPath := sub, parentDir := p, parentDirInode := i
                searchedPath := st.searchedPath ++ slash :: c, dirE := some e }, ?_, fun fuel out t' => ?_⟩
  · refine ⟨hst₃, h.dir.child he hty, h.dir, rfl, rfl, hrest, ?_, ?_, hfit, ?_, fun _ => ⟨e, rfl, rfl⟩⟩
    · show st.searchedPath ++ slash :: c = _
      rw [h.searched, spell_concat]
    · exact fun d hd => h.names d (List.mem_cons_of_mem _ hd)
    · rw [List.append_assoc]
      exact h.short
  · have hname : st.name = c := h.name
    have hne : st.name ≠ [] := by
      rw [hname]
      exact (h.names c List.mem_cons_self).1
    have hassert : Returns (assert (st.searchedPath.length < 512)) t () t :=
      (returns_assert _ _).mpr ⟨h.searched_lt, rfl⟩
    simp only [searchLoop]
    rw [if_neg hne, hname, returns_bind_iff hassert, returns_bind_iff hsearch, returns_bind_iff hnext, if_pos hty,
      returns_bind_iff (returns_dirInode.mpr ⟨ha, rfl⟩), returns_bind_iff (returns_getInode.mpr ⟨hv, rfl⟩),
      returns_bind_iff hclose, returns_bind_iff hin, hno]

/-- Where the way is clear the search comes back with the arrival of the walk. -/
theorem searchLoop_arrives (hs : s.TreeOk) (fuel : Nat) (hfuel : cs.length < fuel)
    (h : Walking s t st k above i seen cs) (hclear : s.Clear k above i cs) :
    ∃ out t', Returns (searchLoop fuel st) t out t' ∧
      Arrives s t' (arrive s.names above i seen cs) (s.asked k above i cs) out := by
  induction fuel generalizing t st k above i seen cs with
  | zero => exact absurd hfuel (Nat.not_lt_zero _)
  | succ fuel ih =>
    cases cs with
    | nil =>
      -- no component is left
      have hname : st.name = [] := h.name
      obtain ⟨t₁, hclose, rfl⟩ := h.stands.close
      obtain ⟨p, t₂, hopen, hst₂⟩ := Stands.opens hs (hs.node above h.dirAbove).number hclear
      obtain ⟨e, he, heno⟩ := h.last rfl
      refine ⟨(some e.iNo, { searchedPath := st.searchedPath, parentDir := p, fType := ftDir }), t₂, ?_, ?_⟩
      · simp only [searchLoop]
        rw [if_pos hname, returns_bind_iff hclose, h.aboveNo, returns_bind_iff hopen,
          returns_bind_iff ((returns_deref _).mpr ⟨he, rfl⟩)]
        exact returns_pure.mpr ⟨rfl, rfl⟩
      · exact ⟨by rw [heno]; rfl, rfl, h.searched, hst₂⟩
    | cons c cs =>
      cases hnames : s.names i c with
      | none =>
        simp only [Fs.Clear, hnames] at hclear
        obtain ⟨r, t₁, hsearch⟩ := h.stands.looks hs h.dir h.nameOk hclear
        rw [arrive_cons_none hnames]
        simp only [Fs.asked, hnames]
        rcases h.stands.lookup hs h.dir h.nameOk hsearch with ⟨hfull, rfl, hst⟩ | ⟨hg, hst, hiff⟩
        · rw [if_pos hfull]
          exact ⟨_, t₁, h.fails fuel hsearch, rfl, rfl, rfl, hst⟩
        · obtain rfl : r = none := by
            refine Option.eq_none_iff_forall_ne_some.mpr fun e he => ?_
            obtain ⟨hmem, hfn⟩ := (hiff e).mp he
            exact Fs.names_eq_none.mp hnames e hmem hfn
          have hfirst := hg 0 (by decide)
          rw [Nat.add_zero] at hfirst
          rw [hfirst, if_neg (by decide)]
          exact ⟨_, t₁, h.fails fuel hsearch, rfl, rfl, rfl, hst⟩
      | some child =>
        obtain ⟨e, he, hfn, rfl⟩ := Fs.exists_of_names hnames
        rcases (hs.node i h.dir).types e he with hty | hty
        · rw [DirEntry.child_dir hty] at hnames
          simp only [Fs.Clear, hnames] at hclear
          obtain ⟨hg, hfit, hopen, hclear⟩ := hclear
          obtain ⟨t₁, st', hwalk, hstep⟩ := h.enter hs he hfn hty hg hfit hopen
          obtain ⟨out, t', hrun, harr⟩ := ih (by simpa using hfuel) hwalk hclear
          rw [arrive_cons_dir hnames]
          simp only [Fs.asked, hnames]
          exact ⟨out, t', (hstep fuel out t').mpr hrun, harr⟩
        · rw [DirEntry.child_file hty] at hnames
          simp only [Fs.Clear, hnames] at hclear
          obtain ⟨hg, hfit⟩ := hclear
          obtain ⟨t₁, sub, hsearch, hst₁, hnext, -⟩ := h.finds hs he hfn hg hfit
          have hname : st.name = c := h.name
          have hne : st.name ≠ [] := by
            rw [hname]
            exact (h.names c List.mem_cons_self).1
          have hassert : Returns (assert (st.searchedPath.length < 512)) t () t :=
            (returns_assert _ _).mpr ⟨h.searched_lt, rfl⟩
          rw [arrive_cons_file hnames]
          simp only [Fs.asked, hnames]
          refine ⟨(some e.iNo, { searchedPath := spell slash (seen ++ [c]), parentDir := st.parentDir
                                 fType := ftRegular }), t₁, ?_, rfl, rfl, rfl, hst₁⟩
          simp only [searchLoop]
          rw [if_neg hne, hname, returns_bind_iff hassert, returns_bind_iff hsearch, returns_bind_iff hnext,
            if_neg (by rw [hty]; decide), if_pos hty, h.searched, spell_concat]
          exact returns_pure.mpr ⟨rfl, rfl⟩

theorem HeadFits.dropLast (h : HeadFits cs) : HeadFits cs.dropLast := by
  cases cs with
  | nil => exact h
  | cons d ds =>
    cases ds with
    | nil => exact nofun
    | cons d' ds => exact h

/-- Where it starves it comes back empty-handed, with the names up to the one it got no memory for.
    That name is the last one unless the walk starves without it as well. -/
theorem searchLoop_starves (hs : s.TreeOk) (fuel : Nat) (hfuel : cs.length < fuel)
    (h : Walking s t st k above i seen cs) (hstarved : s.Starved k i cs) :
    ∃ out t', Returns (searchLoop fuel st) t out t' ∧ Misses s t' (arrive s.names above i seen cs) out ∧
      ∃ upto more, out.2.searchedPath = spell slash upto ∧ upto ≠ [] ∧ seen ++ cs = upto ++ more ∧
        (more = [] ↔ ¬ s.Starved k i cs.dropLast) := by
  induction fuel generalizing t st k above i seen cs with
  | zero => exact absurd hfuel (Nat.not_lt_zero _)
  | succ fuel ih =>
    cases cs with
    | nil => exact absurd hstarved id
    | cons c cs =>
      -- refused the first buffer
      have hrefused (hfull : s.heap.full (s.heap.next + k) = true) (hsome : s.names i c ≠ none) :
          ∃ out t', Returns (searchLoop (fuel + 1) st) t out t' ∧
            Misses s t' (arrive s.names above i seen (c :: cs)) out ∧
            ∃ upto more, out.2.searchedPath = spell slash upto ∧ upto ≠ [] ∧ seen ++ c :: cs = upto ++ more ∧
              (more = [] ↔ ¬ s.Starved k i (c :: cs).dropLast) := by
        obtain ⟨r, t₁, hsearch⟩ := h.stands.looks hs h.dir h.nameOk (Or.inl hfull)
        obtain ⟨child, hnames⟩ := Option.ne_none_iff_exists'.mp hsome
        rcases h.stands.lookup hs h.dir h.nameOk hsearch with ⟨-, rfl, hst⟩ | ⟨hg, -, -⟩
        · refine ⟨_, t₁, h.fails fuel hsearch, ⟨rfl, rfl, ⟨seen ++ [c], ?_⟩, _, _, hst⟩, seen ++ [c], cs, rfl, by simp, by simp, ?_⟩
          · cases child with
            | file n =>
              rw [arrive_cons_file hnames]
              exact ⟨[], rfl, (List.append_nil _).symm, nofun⟩
            | dir n =>
              rw [arrive_cons_dir hnames]
              obtain ⟨more, hseen, -, hmore⟩ := arrive_seen (i := n)
                
              exact ⟨more, rfl, hseen, hmore⟩
          · cases cs with
            | nil => exact iff_of_true rfl id
            | cons d ds =>
              refine iff_of_false (by simp) (not_not.mpr ?_)
              rw [List.dropLast_cons_cons]
              cases child with
              | file n =>
                simp only [Fs.Starved, hnames]
                exact hfull
              | dir n =>
                simp only [Fs.Starved, hnames]
                exact Or.inl hfull
        · rw [← Nat.add_zero k, hg 0 (by decide)] at hfull
          cases hfull
      cases hnames : s.names i c with
      | none =>
        simp only [Fs.Starved, hnames] at hstarved
      | some child =>
        have hsome : s.names i c ≠ none := by
          rw [hnames]
          simp
        obtain ⟨e, he, hfn, rfl⟩ := Fs.exists_of_names hnames
        rcases (hs.node i h.dir).types e he with hty | hty
        · rw [DirEntry.child_dir hty] at hnames
          simp only [Fs.Starved, hnames] at hstarved
          rcases hstarved with hfull | ⟨hg, hfit, hopen, hstarved⟩
          · exact hrefused hfull hsome
          · obtain ⟨t₁, st', hwalk, hstep⟩ := h.enter hs he hfn hty hg hfit hopen
            obtain ⟨out, t', hrun, hmiss, upto, more, hsearched, hne, hcs, hmore⟩ := ih (by simpa using hfuel) hwalk hstarved
            rw [arrive_cons_dir hnames]
            refine ⟨out, t', (hstep fuel out t').mpr hrun, hmiss, upto, more, hsearched, hne, by simpa using hcs, ?_⟩
            cases cs with
            | nil => exact absurd hstarved id
            | cons d ds =>
              have hserved : ¬ s.heap.full (s.heap.next + k) = true := by
                rw [← Nat.add_zero k, hg 0 (by decide)]
                decide
              rw [hmore, List.dropLast_cons_cons]
              simp only [Fs.Starved, hnames]
              rw [or_iff_right hserved, and_iff_right hg, and_iff_right hfit.dropLast, and_iff_right hopen]
        · rw [DirEntry.child_file hty] at hnames
          simp only [Fs.Starved, hnames] at hstarved
          exact hrefused hstarved hsome

theorem searchLoop_misses (hs : s.TreeOk) (fuel : Nat) (hfuel : cs.length < fuel)
    (h : Walking s t st k above i seen cs) (hstarved : s.Starved k i cs) :
    ∃ out t', Returns (searchLoop fuel st) t out t' ∧ Misses s t' (arrive s.names above i seen cs) out := by
  obtain ⟨out, t', hrun, hmiss, -⟩ := searchLoop_starves hs fuel hfuel h hstarved
  exact ⟨out, t', hrun, hmiss⟩

/-- Where the search comes back, the way was clear, or it starved. -/
theorem searchLoop_clear (hs : s.TreeOk) (fuel : Nat) (h : Walking s t st k above i seen cs)
    (hrun : Returns (searchLoop fuel st) t out t') : s.Clear k above i cs ∨ s.Starved k i cs := by
  induction fuel generalizing t st k above i seen cs with
  | zero => exact absurd hrun (returns_stop _)
  | succ fuel ih =>
    cases cs with
    | nil =>
      have hname : st.name = [] := h.name
      simp only [searchLoop] at hrun
      rw [if_pos hname] at hrun
      obtain ⟨t₁, hclose, rfl⟩ := h.stands.close
      rw [returns_bind_iff hclose, h.aboveNo] at hrun
      obtain ⟨p, t₂, hopen, -⟩ := returns_bind.mp hrun
      exact Or.inl (Stands.open hs hopen).1
    | cons c cs =>
      have hname : st.name = c := h.name
      have hne : st.name ≠ [] := by
        rw [hname]
        exact (h.names c List.mem_cons_self).1
      have hassert : Returns (assert (st.searchedPath.length < 512)) t () t :=
        (returns_assert _ _).mpr ⟨h.searched_lt, rfl⟩
      have hrun' := hrun
      simp only [searchLoop] at hrun'
      rw [if_neg hne, hname, returns_bind_iff hassert] at hrun'
      obtain ⟨r, t₁, hsearch, hrun'⟩ := returns_bind.mp hrun'
      rcases h.stands.lookup hs h.dir h.nameOk hsearch with ⟨hfull, rfl, -⟩ | ⟨hg, hst₁, hiff⟩
      · cases hnames : s.names i c with
        | none =>
          left
          simp only [Fs.Clear, hnames]
          exact Or.inl hfull
        | some child =>
          right
          cases child with
          | file n =>
            simp only [Fs.Starved, hnames]
            exact hfull
          | dir n =>
            simp only [Fs.Starved, hnames]
            exact Or.inl hfull
      · cases r with
        | none =>
          left
          have hnames : s.names i c = none := by
            rw [Fs.names_eq_none]
            intro e he hfn
            cases (hiff e).mpr ⟨he, hfn⟩
          simp only [Fs.Clear, hnames]
          exact Or.inr hg
        | some e =>
          obtain ⟨he, hfn⟩ := (hiff e).mp rfl
          have hnames : s.names i c = some e.child := by
            rw [← hfn]
            exact (hs.node i h.dir).names_eq he
          obtain ⟨next, t₂, hnext, hgo⟩ := returns_bind.mp hrun'
          have hfit := headFits_of_pathNext h.rest hnext
          obtain ⟨sub, hnext', hrest⟩ := pathNext_remains (s := t₁) h.rest hfit
          obtain ⟨rfl, rfl⟩ := hnext.unique hnext'
          rcases (hs.node i h.dir).types e he with hty | hty
          · rw [if_pos hty] at hgo
            obtain ⟨a, v, ha, hv, -⟩ := hst₁.inode hs h.dir
            obtain ⟨t₃, hclose, rfl⟩ := hst₁.close
            rw [returns_bind_iff (returns_dirInode.mpr ⟨ha, rfl⟩), returns_bind_iff (returns_getInode.mpr ⟨hv, rfl⟩),
              returns_bind_iff hclose] at hgo
            obtain ⟨p, t₄, hin, -⟩ := returns_bind.mp hgo
            have hopen := (Stands.open hs hin).1
            obtain ⟨t₁, st', hwalk, hstep⟩ := h.enter hs he hfn hty hg hfit hopen
            rw [DirEntry.child_dir hty] at hnames
            simp only [Fs.Clear, Fs.Starved, hnames]
            rcases ih hwalk ((hstep fuel out t').mp hrun) with hclear | hstarved
            · exact Or.inl ⟨hg, hfit, hopen, hclear⟩
            · exact Or.inr (Or.inr ⟨hg, hfit, hopen, hstarved⟩)
          · left
            rw [DirEntry.child_file hty] at hnames
            simp only [Fs.Clear, hnames]
            exact ⟨hg, hfit⟩

end Search

/-! ## search_file -/

/-- The names `search_file` knows the root by. -/
def RootAlias (path : CStr) : Prop := path = [slash] ∨ path = slash :: dot ∨ path = slash :: dotDot

instance (path : CStr) : Decidable (RootAlias path) := inferInstanceAs (Decidable (_ ∨ _ ∨ _))

theorem searchFile_root {path : CStr} (h : RootAlias path) :
    searchFile path = pure (some 0, { searchedPath := [], parentDir := .root, fType := ftDir }) := if_pos h

theorem searchFile_walk {path : CStr} (h : ¬ RootAlias path) : searchFile path = (do
    assert (path.head? = some slash ∧ path.length ≥ 1 ∧ path.length < 512)
    let r ← pathParse path
    searchLoop (path.length + 1)
      { name := r.1, subPath := r.2, parentDir := .root, parentDirInode := 0, searchedPath := [], dirE := none }) :=
  if_neg h

/-- The walk from the root along the components of a path. -/
noncomputable def Fs.walkPath (s : Fs) (path : CStr) : Arrival Nat CStr :=
  arrive s.names 0 0 [] (components slash path)

/-- The handle `p` is open on directory `i`. -/
def Fs.OpenOn (s : Fs) (p : DirPtr) (i : Nat) : Prop :=
  ∃ a v, s.handle p = some a ∧ s.inodes a = some v ∧ v.iNo = i

/-- `search_file` has resolved the path: it returns what the walk has come to, with its type and a
    handle on the directory above, or `-1`, and has recorded the components that have been examined.
    The names of the root itself are known without an examination. -/
structure Resolves (s s' : Fs) (path : CStr) (out : Option Nat × PathSearchRecord) : Prop where
  number : out.1 = (s.walkPath path).found.map Child.node
  kind : ∀ child, (s.walkPath path).found = some child → out.2.fType = child.fType
  parent : (s.walkPath path).found ≠ none → s'.OpenOn out.2.parentDir (s.walkPath path).above
  searched : out.2.searchedPath = if RootAlias path then [] else spell slash (s.walkPath path).seen

section Paths

variable {s s' t : Fs} {path : CStr} {out : Option Nat × PathSearchRecord}

theorem dir_arrive {above i : Nat} {seen cs : List CStr} (habove : s.IsDir above) (hi : s.IsDir i) :
    s.IsDir (arrive s.names above i seen cs).above := by
  induction cs generalizing above i seen with
  | nil => exact habove
  | cons c cs ih =>
    cases hnames : s.names i c with
    | none =>
      rw [arrive_cons_none hnames]
      exact hi
    | some child =>
      cases child with
      | file n =>
        rw [arrive_cons_file hnames]
        exact hi
      | dir n =>
        rw [arrive_cons_dir hnames]
        exact ih hi (hi.names hnames)

/-- The file a walk comes to is named in the directory above. -/
theorem file_arrive {above i n : Nat} {seen cs : List CStr}
    (h : (arrive s.names above i seen cs).found = some (.file n)) :
    ∃ c, s.names (arrive s.names above i seen cs).above c = some (.file n) := by
  induction cs generalizing above i seen with
  | nil =>
    rw [arrive_nil] at h
    cases h
  | cons c cs ih =>
    cases hnames : s.names i c with
    | none =>
      rw [arrive_cons_none hnames] at h
      cases h
    | some child =>
      cases child with
      | file m =>
        rw [arrive_cons_file hnames] at h ⊢
        obtain rfl : m = n := by simpa using h
        exact ⟨c, hnames⟩
      | dir m =>
        rw [arrive_cons_dir hnames] at h ⊢
        exact ih h

/-- And so is the directory it ends in. -/
theorem dir_found {above i n : Nat} {seen cs : List CStr} (hi : s.IsDir i)
    (h : (arrive s.names above i seen cs).found = some (.dir n)) : s.IsDir n := by
  induction cs generalizing above i seen with
  | nil =>
    rw [arrive_nil] at h
    obtain rfl : i = n := by simpa using h
    exact hi
  | cons c cs ih =>
    cases hnames : s.names i c with
    | none =>
      rw [arrive_cons_none hnames] at h
      cases h
    | some child =>
      cases child with
      | file m =>
        rw [arrive_cons_file hnames] at h
        cases h
      | dir m =>
        rw [arrive_cons_dir hnames] at h
        exact ih (hi.names hnames) h

theorem Arrives.resolves {k : Nat} (hs : s.TreeOk) (h : Arrives s t (s.walkPath path) k out) (hroot : ¬ RootAlias path) :
    Resolves s t path out where
  number := h.number
  kind := by
    intro child hfound
    rw [h.kind, hfound]
    rfl
  parent := by
    intro _
    exact h.parent.inode hs (dir_arrive .root .root)
  searched := by
    rw [if_neg hroot]
    exact h.searched

theorem spell_length_append {cs ds : List CStr} (hds : ds ≠ []) :
    (spell slash cs).length < (spell slash (cs ++ ds)).length := by
  rw [spell_append, List.length_append]
  cases ds with
  | nil => exact absurd rfl hds
  | cons d ds => simp

theorem Misses.not_resolves {t' : Fs} (h : Misses s t' (s.walkPath path) out) (hroot : ¬ RootAlias path) :
    ¬ Resolves s t path out := by
  intro hres
  obtain ⟨hnone, -, ⟨seen, more, hsearched, hseen, hmore⟩, -⟩ := h
  have hfound : (s.walkPath path).found = none := by
    have hnumber := hres.number
    rw [hnone] at hnumber
    exact Option.map_eq_none_iff.mp hnumber.symm
  have hlen := @spell_length_append seen _ (hmore hfound)
  have heq := hres.searched
  rw [if_neg hroot, hsearched, hseen] at heq
  rw [← heq] at hlen
  exact absurd hlen (Nat.lt_irrefl _)

/-- The loop starts at the root. -/
theorem Walking.start (hs : s.TreeOk) (habs : path.head? = some slash) (hlen : path.length < 512)
    (hnul : ∀ b ∈ path, b ≠ 0) (hne : components slash path ≠ []) (hfit : HeadFits (components slash path)) :
    Walking s s
      { name := (components slash path).headD [], subPath := if restOf path = [] then none else some (restOf path)
        parentDir := .root, parentDirInode := 0, searchedPath := [], dirE := none }
      0 0 0 [] (components slash path) where
  stands := .root hs
  dir := .root
  dirAbove := .root
  aboveNo := rfl
  name := rfl
  rest := remains_restOf (components_tail habs)
  searched := rfl
  names := by
    intro c hc
    obtain ⟨hc, -, hin⟩ := mem_components hc
    exact ⟨hc, fun b hb => hnul b (hin.mem hb)⟩
  fits := hfit
  short := by
    have hle := @spell_components_length_le UInt8 slash path.tail _
    have hpos : 0 < path.length := List.length_pos_of_ne_nil fun h => by rw [h] at habs; cases habs
    rw [components_tail habs, List.length_tail] at hle
    rw [List.nil_append]
    omega
  last := fun h => absurd h hne

theorem Fs.TreeOk.walk_root (hs : s.TreeOk) (hroot : RootAlias path) :
    (s.walkPath path).found = some (.dir 0) ∧ (s.walkPath path).above = 0 := by
  unfold Fs.walkPath
  rcases hroot with rfl | rfl | rfl
  · rw [show components slash [slash] = [] by decide]
    exact ⟨rfl, rfl⟩
  · rw [show components slash (slash :: dot) = [dot] by decide, arrive_cons_dir (hs.self 0 .root)]
    exact ⟨rfl, rfl⟩
  · rw [show components slash (slash :: dotDot) = [dotDot] by decide, arrive_cons_dir hs.rootUp]
    exact ⟨rfl, rfl⟩

/-- The components of a path are fewer than its bytes. -/
theorem components_length_lt (habs : path.head? = some slash) :
    (components slash path).length < path.length + 1 := by
  have hle := @spell_components_length_le UInt8 slash path.tail _
  have hspell (cs : List CStr) : cs.length ≤ (spell slash cs).length := by
    induction cs with
    | nil => exact le_rfl
    | cons c cs ih =>
      rw [spell_cons, List.length_append, List.length_cons, List.length_cons]
      omega
  have hcs := hspell (components slash path)
  rw [components_tail habs, List.length_tail] at hle
  have hpos : 0 < path.length := List.length_pos_of_ne_nil fun h => by rw [h] at habs; cases habs
  omega

/-- Away from the names of the root the search is the loop, and the loop needs a component. -/
theorem searchFile_loop (habs : path.head? = some slash) (hroot : ¬ RootAlias path)
    (hrun : Returns (searchFile path) s out t) :
    components slash path ≠ [] ∧ HeadFits (components slash path) ∧
      Returns (searchLoop (path.length + 1)
        { name := (components slash path).headD [], subPath := if restOf path = [] then none else some (restOf path)
          parentDir := .root, parentDirInode := 0, searchedPath := [], dirE := none }) s out t := by
  rw [searchFile_walk hroot] at hrun
  simp only [returns_bind (x := assert _), returns_bind (x := pathParse _), returns_assert,
    returns_pathParse_abs habs] at hrun
  obtain ⟨_, _, ⟨-, rfl⟩, _, _, ⟨hfit, rfl, rfl⟩, hrun⟩ := hrun
  refine ⟨fun hnil => ?_, hfit, hrun⟩
  -- without a component `dir_e` is read before it is written
  rw [hnil] at hrun
  simp only [searchLoop] at hrun
  rw [if_pos (show ([] : List CStr).headD [] = [] from rfl)] at hrun
  simp only [returns_bind, returns_deref] at hrun
  obtain ⟨_, _, _, _, _, _, _, _, ⟨hnone, _⟩, _⟩ := hrun
  cases hnone

/-- Where the way is clear `search_file` comes back with the arrival of the walk. -/
theorem searchFile_arrives (hs : s.TreeOk) (habs : path.head? = some slash) (hlen : path.length < 512)
    (hnul : ∀ b ∈ path, b ≠ 0) (hroot : ¬ RootAlias path) (hne : components slash path ≠ [])
    (hfit : HeadFits (components slash path)) (hclear : s.Clear 0 0 0 (components slash path)) :
    ∃ out s', Returns (searchFile path) s out s' ∧
      Arrives s s' (s.walkPath path) (s.asked 0 0 0 (components slash path)) out := by
  have hwalk := Walking.start hs habs hlen hnul hne hfit
  obtain ⟨out, s', hrun, harr⟩ := searchLoop_arrives hs _ (components_length_lt habs) hwalk hclear
  have hpos : 1 ≤ path.length := List.length_pos_of_ne_nil fun h => by rw [h] at habs; cases habs
  refine ⟨out, s', ?_, harr⟩
  rw [searchFile_walk hroot]
  exact returns_bind.mpr ⟨(), s, (returns_assert _ _).mpr ⟨⟨habs, hpos, hlen⟩, rfl⟩, returns_bind.mpr
    ⟨_, s, (returns_pathParse_abs habs).mpr ⟨hfit, rfl, rfl⟩, hrun⟩⟩

/-- Where it starves it comes back empty-handed. -/
theorem searchFile_starves (hs : s.TreeOk) (habs : path.head? = some slash) (hlen : path.length < 512)
    (hnul : ∀ b ∈ path, b ≠ 0) (hroot : ¬ RootAlias path) (hne : components slash path ≠ [])
    (hfit : HeadFits (components slash path)) (hstarved : s.Starved 0 0 (components slash path)) :
    ∃ out s', Returns (searchFile path) s out s' ∧ Misses s s' (s.walkPath path) out ∧
      ∃ upto more, out.2.searchedPath = spell slash upto ∧ upto ≠ [] ∧ components slash path = upto ++ more ∧
        (more = [] ↔ ¬ s.Starved 0 0 (components slash path).dropLast) := by
  have hwalk := Walking.start hs habs hlen hnul hne hfit
  obtain ⟨out, s', hrun, hmiss⟩ := searchLoop_starves hs _ (components_length_lt habs) hwalk hstarved
  have hpos : 1 ≤ path.length := List.length_pos_of_ne_nil fun h => by rw [h] at habs; cases habs
  refine ⟨out, s', ?_, hmiss⟩
  rw [searchFile_walk hroot]
  exact returns_bind.mpr ⟨(), s, (returns_assert _ _).mpr ⟨⟨habs, hpos, hlen⟩, rfl⟩, returns_bind.mpr
    ⟨_, s, (returns_pathParse_abs habs).mpr ⟨hfit, rfl, rfl⟩, hrun⟩⟩

theorem searchFile_misses (hs : s.TreeOk) (habs : path.head? = some slash) (hlen : path.length < 512)
    (hnul : ∀ b ∈ path, b ≠ 0) (hroot : ¬ RootAlias path) (hne : components slash path ≠ [])
    (hfit : HeadFits (components slash path)) (hstarved : s.Starved 0 0 (components slash path)) :
    ∃ out s', Returns (searchFile path) s out s' ∧ Misses s s' (s.walkPath path) out := by
  obtain ⟨out, s', hrun, hmiss, -⟩ := searchFile_starves hs habs hlen hnul hroot hne hfit hstarved
  exact ⟨out, s', hrun, hmiss⟩

/-- The last component of a path. -/
theorem lastName_concat {q w : CStr} (hw : slash ∉ w) : lastName (q ++ slash :: w) = w := by
  have htake : (w.reverse ++ slash :: q.reverse).takeWhile (· ≠ slash) = w.reverse := by
    rw [List.takeWhile_append_of_pos]
    · simp
    · intro b hb
      have hne : b ≠ slash := by
        rintro rfl
        exact hw (List.mem_reverse.mp hb)
      simpa using hne
  rw [lastName, List.reverse_append, List.reverse_cons, List.append_assoc, List.singleton_append, htake,
    List.reverse_reverse]

end Paths

/-- In a well-formed tree `search_file` resolves the names of the root, and every other path that has
    a component, as long as the names it cuts off fit its buffer and the memory it asks for is
    granted. -/
theorem search_resolves_iff (s : Fs) (path : CStr) (hs : s.TreeOk) (habs : path.head? = some slash)
    (hlen : path.length < 512) (hnul : ∀ b ∈ path, b ≠ 0) :
    (∃ out s', Returns (searchFile path) s out s' ∧ Resolves s s' path out) ↔
      RootAlias path ∨ components slash path ≠ [] ∧ HeadFits (components slash path) ∧
        s.Clear 0 0 0 (components slash path) := by
  by_cases hroot : RootAlias path
  · -- the root is known by its names
    refine ⟨fun _ => Or.inl hroot, fun _ => ?_⟩
    have hrun : Returns (searchFile path) s (some 0, { searchedPath := [], parentDir := .root, fType := ftDir }) s := by
      rw [searchFile_root hroot]
      exact returns_pure.mpr ⟨rfl, rfl⟩
    have hwalk : (s.walkPath path).found = some (.dir 0) ∧ (s.walkPath path).above = 0 :=
      hs.walk_root hroot
    refine ⟨_, s, hrun, ?_, ?_, ?_, ?_⟩
    · rw [hwalk.1]
      rfl
    · rw [hwalk.1]
      rintro _ ⟨⟩
      rfl
    · intro _
      rw [hwalk.2]
      exact (Stands.root hs).inode hs .root
    · rw [if_pos hroot]
  · rw [or_iff_right hroot]
    constructor
    · rintro ⟨out, s', hrun, hres⟩
      obtain ⟨hne, hfit, hloop⟩ := searchFile_loop habs hroot hrun
      refine ⟨hne, hfit, ?_⟩
      have hstart := Walking.start hs habs hlen hnul hne hfit
      rcases searchLoop_clear hs _ hstart hloop with hclear | hstarved
      · exact hclear
      · obtain ⟨out', t', hrun', hmiss⟩ := searchLoop_misses hs _ (components_length_lt habs) hstart hstarved
        obtain ⟨rfl, -⟩ := hloop.unique hrun'
        exact absurd hres (hmiss.not_resolves hroot)
    · rintro ⟨hne, hfit, hclear⟩
      obtain ⟨out, s', hrun, harr⟩ := searchFile_arrives hs habs hlen hnul hroot hne hfit hclear
      exact ⟨out, s', hrun, harr.resolves hs hroot⟩

open SmallTree in
/-- `"/d/f"` leads to the file, with its directory open. -/
theorem search_resolves_deep : ∃ out s', Returns (searchFile deepPath) fs out s' ∧ Resolves fs s' deepPath out := by
  refine (search_resolves_iff fs deepPath treeOk rfl (by decide) (by decide)).mpr (Or.inr ⟨by decide, by decide, ?_⟩)
  have hroot : fs.names 0 [100] = some (.dir 1) := names_root (e := ⟨[100], 1, ftDir⟩) (by decide)
  have hsub : fs.names 1 [102] = some (.file 2) := names_sub (e := ⟨[102], 2, ftRegular⟩) (by decide)
  rw [show components slash deepPath = [[100], [102]] by decide]
  simp only [Fs.Clear, hroot, hsub]
  exact ⟨grants _ _, by decide, grants _ _, grants _ _, nofun⟩

/-- `"//"` has no component and is none of the names of the root: the search comes back with an entry
    that has never been written. -/
theorem search_slashes : SmallTree.fs.TreeOk ∧ Stops (searchFile [slash, slash]) SmallTree.fs .fault ∧
    ¬ ∃ out s', Returns (searchFile [slash, slash]) SmallTree.fs out s' ∧ Resolves SmallTree.fs s' [slash, slash] out := by
  have hstop : Stops (searchFile [slash, slash]) SmallTree.fs .fault := by
    rw [← stopsFor_eq_true]
    decide +kernel
  refine ⟨SmallTree.treeOk, hstop, ?_⟩
  rintro ⟨out, s', hrun, -⟩
  cases hstop.symm.trans hrun

end ZxyOs
