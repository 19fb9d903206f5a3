import CometArchive.Archive.ObjectKeys
import CometArchive.Archive.ObjectStore
import CometArchive.Shared.Carrying
import CometArchive.Shared.Files

set_option autoImplicit false

/-!
# The object store in a directory

The methods of `LocalObjectStore` as programs over the calls of the operating system. Paths are those of a Unix
system, and below the root nobody but the store makes any.
-/

namespace CometArchive.Archive

open GoBytes GoError GoText Programs Programs.Fallible Files

inductive LocalOp where
  | file (call : Call)
  | other (op : Op)

abbrev LocalOp.Res : LocalOp → Type
  | .file call => call.Res
  | .other op => op.Res

abbrev LocalM := Fallible LocalOp LocalOp.Res Err

def answered {α : Type} : Answer α → Except Err α
  -- an error of the operating system is handed on as it is
  | .ok value => .ok value
  | .notExist => .error (.new "file does not exist")
  | .exist => .error (.new "file exists")
  | .wouldBlock => .error (.new "resource temporarily unavailable")
  | .failed text => .error (.new text)

def unlessMissing {α : Type} : Answer α → Except Err (Option α)
  | .notExist => .ok none
  | answer => (answered answer).map some

def ignoring (p : LocalM Unit) : LocalM Unit := recover p fun _ => return ()

def filepathDir (path : String) : String :=
  filepathClean (String.ofList (path.toList.reverse.dropWhile (· ≠ '/')).reverse)

def filepathRel (base target : String) : Except Err String :=
  -- `filepath.Rel` to a path below the base
  let cleanBase := filepathClean base
  let cleanTarget := filepathClean target
  let lead := if cleanBase = "." then "" else if cleanBase = "/" then "/" else cleanBase ++ "/"
  if cleanTarget = cleanBase then .ok "."
  else if lead.toList.isPrefixOf cleanTarget.toList ∧
      ¬(cleanBase = "." ∧ cleanTarget.toList.head? = some '/') then
    .ok (String.ofList (cleanTarget.toList.drop lead.toList.length))
  else .error (.new ("Rel: can't make " ++ target ++ " relative to " ++ base))

def temporaryName (dir lead name : String) : Prop :=
  -- `os.CreateTemp` puts random digits for the star at the end of its pattern
  ∃ random : String, (∀ c ∈ random.toList, c.isDigit = true) ∧
    name = (if dir.toList.getLast? = some '/' then dir else dir ++ "/") ++ (lead ++ random)

def maxS3ObjectBytes : Int := maxSegmentPayloadBytes + 2 ^ 20

def objectRevision (codec : Codec) (data : Bytes) : String := asciiText (hexEncode (codec.sha256 data))

def lstat (path : String) : LocalM (Option Kind) := attempt (.file (.lstat path)) unlessMissing

def syncDirectory (path : String) : LocalM Unit := attempt (.file (.syncDir path)) answered

def rejectSymlinkParts (path : String) : String → List (List Char) → LocalM Unit
  | _, [] => return ()
  | current, part :: rest =>
    if part = [] ∨ part = ['.'] then rejectSymlinkParts path current rest
    else do
      let current := filepathJoin current (String.ofList part)
      match ← lstat current with
      | none => return ()
      | some .symlink =>
        lift (.error (.new s!"local object path {quoted path} contains symlink {quoted current}"))
      | some _ => rejectSymlinkParts path current rest

def rejectLocalObjectSymlink (root path : String) : LocalM Unit := do
  let rel ← lift (filepathRel root path)
  rejectSymlinkParts path root (splitSlash rel)

/-- The directories up to one that is there, the outermost first. The fuel is the length of the path: every
directory has a shorter one above it, up to the root of the file system, which is always there. -/
def missingDirectories : Nat → String → List String → LocalM (List String)
  | 0, dir, _ => lift (.error (.new s!"object directory {quoted dir} is missing"))
  | fuel + 1, dir, missing => do
    match ← attempt (.file (.stat dir)) unlessMissing with
    | some isDir =>
      lift (refuse (isDir = false) (.new s!"object directory {quoted dir} is not a directory"))
      return missing
    | none => missingDirectories fuel (filepathDir dir) (dir :: missing)

def mkdirUnlessThere : Answer Unit → Except Err Unit
  -- `os.Mkdir` may find that someone else was faster
  | .exist => .ok ()
  | answer => answered answer

def makeDirectories : List String → LocalM Unit
  | [] => return ()
  | dir :: rest => do
    attempt (.file (.mkdir dir)) mkdirUnlessThere
    syncDirectory (filepathDir dir)
    makeDirectories rest

def makeDirectoriesDurable (path : String) : LocalM Unit := do
  let missing ← missingDirectories ((filepathClean path).toList.length + 1) (filepathClean path) []
  makeDirectories missing

structure LocalObjectStore where
  root : String

namespace LocalObjectStore

variable (codec : Codec) (s : LocalObjectStore)

def readObject (file : Option Nat) : LocalM Bytes := do
  let size ← attempt (.file (.fstat file)) answered
  lift (refuse (maxS3ObjectBytes < size) (.new "object exceeds maximum read size"))
  let data ← attempt (.file (.readAll file (maxS3ObjectBytes + 1).toNat)) answered
  lift (refuse (maxS3ObjectBytes < data.length) (.new "object exceeds maximum read size"))
  return data

def get (key : String) : LocalM Bytes := do
  let path ← lift (pathForKey s.root key)
  rejectLocalObjectSymlink s.root path
  match ← attempt (.file (.openFile path)) unlessMissing with
  | none => lift (.error (.sentinel .objectNotFound))
  | some file => readObject file

def getVersioned (key : String) : LocalM (Bytes × String) := do
  let data ← s.get key
  return (data, objectRevision codec data)

def prepare (path : String) : LocalM Unit := do
  rejectLocalObjectSymlink s.root (filepathDir path)
  makeDirectoriesDurable (filepathDir path)
  rejectLocalObjectSymlink s.root (filepathDir path)

def write (tmp : Nat) (data : Bytes) : LocalM Unit := attempt (.file (.write tmp data)) answered
def chmod (tmp : Nat) : LocalM Unit := attempt (.file (.chmod tmp)) answered
def sync (tmp : Nat) : LocalM Unit := attempt (.file (.sync tmp)) answered
def close (tmp : Nat) : LocalM Unit := attempt (.file (.close tmp)) answered
def remove (path : String) : LocalM Unit := attempt (.file (.remove path)) answered

def closing (tmp : Nat) (p : LocalM Unit) : LocalM Unit :=
  recover p fun err => do
    ignoring (close tmp)
    lift (.error err)

def put (key : String) (data : Bytes) : LocalM Unit := do
  let path ← lift (pathForKey s.root key)
  s.prepare path
  let created ← attempt (.file (.createTemp (filepathDir path) ".put-")) answered
  deferring (do
    closing created.2 (write created.2 data)
    closing created.2 (sync created.2)
    close created.2
    attempt (.file (.rename created.1 path)) answered
    syncDirectory (filepathDir path)) (remove created.1)

def linkUnlessThere : Answer Unit → Except Err Unit
  | .exist => .error (.sentinel .objectAlreadyExists)
  | answer => answered answer

def putIfAbsent (key : String) (data : Bytes) : LocalM Unit := do
  let path ← lift (pathForKey s.root key)
  s.prepare path
  let created ← attempt (.file (.createTemp (filepathDir path) ".put-if-absent-")) answered
  deferring (do
    write created.2 data
    chmod created.2
    sync created.2
    close created.2
    attempt (.file (.link created.1 path)) linkUnlessThere
    syncDirectory (filepathDir path)) (do
    ignoring (close created.2)
    ignoring (remove created.1))

def existsKey (key : String) : LocalM Bool := do
  let path ← lift (pathForKey s.root key)
  rejectLocalObjectSymlink s.root path
  match ← lstat path with
  | none => return false
  | some .symlink => lift (.error (.new s!"local object {quoted key} is a symlink"))
  | some _ => return true

def stat (key : String) : LocalM Int := do
  -- the size that `Stat` reports; a directory has one of its own
  let path ← lift (pathForKey s.root key)
  rejectLocalObjectSymlink s.root path
  match ← lstat path with
  | none => lift (.error (.sentinel .objectNotFound))
  | some .symlink => lift (.error (.new s!"local object {quoted key} is a symlink"))
  | some .directory => return 0
  | some (.file size) => return size

def lockDir : String := filepathJoin s.root ".cas-locks"

def lockPath (key : String) : String := filepathJoin s.lockDir (objectRevision codec key.toUTF8.data.toList)

def unlessLocked : Answer Unit → Except Err Bool
  | .wouldBlock => .ok false
  | answer => (answered answer).map fun _ => true

/-- The wait for the timer or the context ends as a look at the context does. -/
def acquire (lock : Nat) : Nat → LocalM Unit
  | 0 => lift (.error (.new "lock wait did not end"))
  | fuel + 1 => do
    attempt (.other .ctxErr) fun answer => answer
    let taken ← attempt (.file (.flock lock)) unlessLocked
    if taken then return ()
    else do
      attempt (.other .ctxErr) fun answer => answer
      acquire lock fuel

def currentRevision (key : String) : LocalM String :=
  -- the revision of a missing object is empty
  recover (do
    let found ← s.getVersioned codec key
    return found.2) fun err =>
    if err.is .objectNotFound then return "" else lift (.error err)

def compareAndSwap (fuel : Nat) (key : String) (data : Bytes) (revision : String) : LocalM String := do
  lift (validateObjectKey key)
  rejectLocalObjectSymlink s.root s.lockDir
  makeDirectoriesDurable s.lockDir
  let lock ← attempt (.file (.openLock (s.lockPath codec key))) answered
  deferring (do
    acquire lock fuel
    let current ← s.currentRevision codec key
    lift (refuse (current ≠ revision) (.sentinel .objectConflict))
    s.put key data
    return objectRevision codec data) (attempt (.file (.closeLock lock)) answered)

/-- How an archive process makes its calls. The store has no `PutIfAbsentReturningETag`. -/
def carry (fuel : Nat) : (op : Op) → Prog LocalOp LocalOp.Res op.Res
  | .get key => (s.get key).run
  | .getVersioned key => (s.getVersioned codec key).run
  | .existsKey key => (s.existsKey key).run
  | .stat key => (s.stat key).run
  | .putIfAbsent key data => (s.putIfAbsent key data).run
  | .compareAndSwap key data revision => (s.compareAndSwap codec fuel key data revision).run
  | op => .call (.other op) .ret

end LocalObjectStore

end CometArchive.Archive
