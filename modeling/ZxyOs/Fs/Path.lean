/-
  ZxyOs.Fs.Path

  Path resolution, `fs/fs.c`: cutting a path into components and walking the
  directory tree along them.

  Paths are C strings (byte lists without the terminator).  A component is
  copied into an array of 16 bytes; one that does not fit with its terminator
  overruns it.
-/

import ZxyOs.Fs.File

namespace ZxyOs

open Lib Lib.Exec

/-- `'/'`. -/
abbrev slash : UInt8 := 47

/-- `path_parse`: the first component of a path and what follows it, `none` for
    `NULL`.  The first byte is set to `'/'` and not looked at; in an empty string
    it is the terminator. -/
def pathParse : CStr → FsM (CStr × Option CStr)
  | [] => stop .fault
  | _ :: cs => do
    let sub := cs.dropWhile (· = slash)
    let name := sub.takeWhile (· ≠ slash)
    let rest := sub.dropWhile (· ≠ slash)
    require (name.length < 16)
    return (name, if rest = [] then none else some rest)

/-- `if (p) p = path_parse(p, name)` with `name` cleared before. -/
def pathNext : Option CStr → FsM (CStr × Option CStr)
  | none => return ([], none)
  | some p => pathParse p

/-- The loop of `path_depth_cnt` after a non-empty component, at most `fuel`
    components from the end. -/
def pathDepthLoop : Nat → Option CStr → Nat → FsM Nat
  | 0, _, depth => return depth
  | fuel + 1, p, depth => do
    let (name, p) ← pathNext p
    if name = [] then
      return depth + 1
    pathDepthLoop fuel p (depth + 1)

/-- `path_depth_cnt`.  Its name buffer starts out uninitialised, so the result
    for a path without a component is arbitrary. -/
def pathDepthCnt (pathname : CStr) : FsM Nat := do
  let (name, p) ← pathParse pathname
  require (name ≠ [])
  pathDepthLoop pathname.length p 0

/-- `struct path_search_record`. -/
structure PathSearchRecord where
  searchedPath : CStr
  parentDir : DirPtr
  fType : Nat

/-- What the loop of `search_file` carries from one component to the next: the
    component, the rest of the path, the directory it is looked up in, the inode
    number of the directory above that one, the path examined so far and the last
    entry found. -/
structure SearchState where
  name : CStr
  subPath : Option CStr
  parentDir : DirPtr
  parentDirInode : Nat
  searchedPath : CStr
  dirE : Option DirEntry

/-- The loop of `search_file` and what follows it, with `fuel` components left. -/
def searchLoop : Nat → SearchState → FsM (Option Nat × PathSearchRecord)
  | 0, _ => stop .fault
  | fuel + 1, st =>
    if st.name = [] then do
      -- every component was a directory: hand out the one above the last
      dirClose st.parentDir
      let parent ← dirOpen st.parentDirInode
      -- without a component `dir_e` was never written
      let e ← deref st.dirE
      return (some e.iNo,
        { searchedPath := st.searchedPath, parentDir := parent, fType := ftDir })
    else do
      assert (st.searchedPath.length < 512)
      let searched := st.searchedPath ++ slash :: st.name
      let found ← searchDirEntry st.parentDir st.name
      match found with
      | none =>
        return (none,
          { searchedPath := searched, parentDir := st.parentDir, fType := ftUnkown })
      | some e =>
        let (name, subPath) ← pathNext st.subPath
        if e.fType = ftDir then
          let a ← dirInode st.parentDir
          let v ← getInode a
          dirClose st.parentDir
          let dir ← dirOpen e.iNo
          searchLoop fuel
            { name := name, subPath := subPath, parentDir := dir, parentDirInode := v.iNo
              searchedPath := searched, dirE := some e }
        else if e.fType = ftRegular then
          return (some e.iNo,
            { searchedPath := searched, parentDir := st.parentDir, fType := ftRegular })
        else
          searchLoop fuel
            { st with name := name, subPath := subPath, searchedPath := searched
                      dirE := some e }

/-- `search_file`: the inode number a path leads to, `none` for `-1`, and the
    record the caller works with. -/
def searchFile (pathname : CStr) : FsM (Option Nat × PathSearchRecord) :=
  if pathname = [slash] ∨ pathname = slash :: dot ∨ pathname = slash :: dotDot then
    return (some 0, { searchedPath := [], parentDir := .root, fType := ftDir })
  else do
    assert (pathname.head? = some slash ∧ pathname.length ≥ 1 ∧ pathname.length < 512)
    let (name, subPath) ← pathParse pathname
    searchLoop (pathname.length + 1)
      { name := name, subPath := subPath, parentDir := .root, parentDirInode := 0
        searchedPath := [], dirE := none }

/-- `strrchr(pathname, '/') + 1`. -/
def lastName (pathname : CStr) : CStr := (pathname.reverse.takeWhile (· ≠ slash)).reverse

end ZxyOs
