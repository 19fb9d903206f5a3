import Mathlib.Logic.Function.Basic

set_option autoImplicit false

/-!
# A file system

Paths lead to directories, symbolic links and files. A file is a numbered inode, and several paths may lead to
it. Nobody can tell whether what was written has reached the disk while the power is on.
-/

namespace Files

inductive Entry where
  | directory
  | symlink
  | file (inode : Nat)
  deriving DecidableEq, Repr

structure FileSystem where
  entries : String → Option Entry
  data : Nat → List UInt8
  -- inodes from this one on are not in use
  next : Nat
  -- the process that made the file
  maker : Nat → Nat
  writable : Nat → Bool
  -- who was given a name for a temporary file; no name is given out twice
  issued : String → Option Nat
  -- advisory locks
  holder : Nat → Option Nat

inductive Kind where
  | directory
  | symlink
  | file (size : Nat)
  deriving DecidableEq, Repr

inductive Answer (α : Type) where
  -- the errors that programs ask for have cases of their own
  | ok (value : α)
  | notExist
  | exist
  | wouldBlock
  | failed (text : String)

inductive Call where
  | lstat (path : String)
  | stat (path : String)
  | mkdir (path : String)
  | syncDir (path : String)
  -- a new file in `dir` whose name starts with `lead`, open for writing
  | createTemp (dir lead : String)
  | write (inode : Nat) (data : List UInt8)
  | chmod (inode : Nat)
  | sync (inode : Nat)
  | close (inode : Nat)
  | link (old new : String)
  | rename (old new : String)
  | remove (path : String)
  -- a directory can be opened, but has no inode to read
  | openFile (path : String)
  | fstat (handle : Option Nat)
  | readAll (handle : Option Nat) (limit : Nat)
  | openLock (path : String)
  | flock (inode : Nat)
  | closeLock (inode : Nat)

abbrev Call.Res : Call → Type
  | .lstat _ => Answer Kind
  | .stat _ => Answer Bool
  | .createTemp _ _ => Answer (String × Nat)
  | .openFile _ => Answer (Option Nat)
  | .fstat _ => Answer Nat
  | .readAll _ _ => Answer (List UInt8)
  | .openLock _ => Answer Nat
  | _ => Answer Unit

namespace FileSystem

def kind (fs : FileSystem) (path : String) : Option Kind :=
  (fs.entries path).map fun entry => match entry with
    | .directory => .directory
    | .symlink => .symlink
    | .file inode => .file (fs.data inode).length

def setEntry (fs : FileSystem) (path : String) (entry : Option Entry) : FileSystem :=
  { fs with entries := Function.update fs.entries path entry }

def newFile (fs : FileSystem) (id : Nat) (path : String) (writable : Bool) : FileSystem :=
  { fs.setEntry path (some (.file fs.next)) with
    data := Function.update fs.data fs.next []
    next := fs.next + 1
    maker := Function.update fs.maker fs.next id
    writable := Function.update fs.writable fs.next writable }

def append (fs : FileSystem) (inode : Nat) (data : List UInt8) : FileSystem :=
  { fs with data := Function.update fs.data inode (fs.data inode ++ data) }

def unlock (fs : FileSystem) (id : Nat) (which : Nat → Prop) [DecidablePred which] : FileSystem :=
  -- the locks of a process are gone once its descriptors are closed
  { fs with holder := fun inode => if which inode ∧ fs.holder inode = some id then none else fs.holder inode }

def dies (id : Nat) (fs fs' : FileSystem) : Prop := fs' = fs.unlock id fun _ => True

end FileSystem

/-- What a call of process `id` may answer and do; `temporary dir lead name` says that `createTemp` may come up with
a name. Any call may fail, and then does nothing, except that a write may have stopped midway and that a file is
closed in any case. -/
def Effect (temporary : String → String → String → Prop) (id : Nat) : (call : Call) → FileSystem → call.Res → FileSystem → Prop
  | .lstat path, fs, .ok kind, fs' => fs' = fs ∧ fs.kind path = some kind
  | .lstat path, fs, .notExist, fs' => fs' = fs ∧ fs.entries path = none
  | .stat path, fs, .ok isDir, fs' => fs' = fs ∧
    (fs.entries path = some .symlink ∨ ∃ entry, fs.entries path = some entry ∧ (isDir = true ↔ entry = .directory))
  | .stat path, fs, .notExist, fs' => fs' = fs ∧ (fs.entries path = some .symlink ∨ fs.entries path = none)
  | .mkdir path, fs, .ok (), fs' => fs.entries path = none ∧ fs' = fs.setEntry path (some .directory)
  | .mkdir path, fs, .exist, fs' => fs' = fs ∧ fs.entries path ≠ none
  | .syncDir _, fs, .ok (), fs' => fs' = fs
  | .createTemp dir lead, fs, .ok (name, inode), fs' => temporary dir lead name ∧ fs.issued name = none ∧
    fs.entries name = none ∧ inode = fs.next ∧
    fs' = { fs.newFile id name true with issued := Function.update fs.issued name (some id) }
  | .write inode data, fs, .ok (), fs' => fs' = fs.append inode data
  | .write inode data, fs, .failed _, fs' => ∃ part, part <+: data ∧ fs' = fs.append inode part
  | .chmod _, fs, .ok (), fs' => fs' = fs
  | .sync _, fs, .ok (), fs' => fs' = fs
  | .close inode, fs, .ok (), fs' => fs' = { fs with writable := Function.update fs.writable inode false }
  | .close inode, fs, .failed _, fs' =>
    fs' = { fs with writable := Function.update fs.writable inode false }
  | .link old new, fs, .ok (), fs' =>
    ∃ inode, fs.entries old = some (.file inode) ∧ fs.entries new = none ∧ fs' = fs.setEntry new (some (.file inode))
  | .link _ new, fs, .exist, fs' => fs' = fs ∧ fs.entries new ≠ none
  | .link old _, fs, .notExist, fs' => fs' = fs ∧ fs.entries old = none
  | .rename old new, fs, .ok (), fs' => ∃ inode, fs.entries old = some (.file inode) ∧
    fs.entries new ≠ some .directory ∧ fs' = (fs.setEntry new (some (.file inode))).setEntry old none
  | .rename old _, fs, .notExist, fs' => fs' = fs ∧ fs.entries old = none
  | .remove path, fs, .ok (), fs' =>
    fs.entries path ≠ none ∧ fs.entries path ≠ some .directory ∧ fs' = fs.setEntry path none
  | .remove path, fs, .notExist, fs' => fs' = fs ∧ fs.entries path = none
  | .openFile path, fs, .ok handle, fs' => fs' = fs ∧ (fs.entries path = some .symlink ∨
    handle = none ∧ fs.entries path = some .directory ∨
    ∃ inode, handle = some inode ∧ fs.entries path = some (.file inode))
  | .openFile path, fs, .notExist, fs' => fs' = fs ∧ (fs.entries path = some .symlink ∨ fs.entries path = none)
  | .fstat handle, fs, .ok size, fs' => fs' = fs ∧ ∀ inode ∈ handle, size = (fs.data inode).length
  | .readAll handle limit, fs, .ok data, fs' => fs' = fs ∧ ∃ inode ∈ handle, data = (fs.data inode).take limit
  | .openLock path, fs, .ok inode, fs' => fs.entries path = some (.file inode) ∧ fs' = fs ∨
    fs.entries path = none ∧ inode = fs.next ∧ fs' = fs.newFile id path false
  | .flock inode, fs, .ok (), fs' =>
    fs.holder inode = none ∧ fs' = { fs with holder := Function.update fs.holder inode (some id) }
  | .flock _, fs, .wouldBlock, fs' => fs' = fs
  | .closeLock inode, fs, .ok (), fs' => fs' = fs.unlock id (· = inode)
  | .closeLock inode, fs, .failed _, fs' => fs' = fs.unlock id (· = inode)
  | .lstat _, fs, .failed _, fs' | .stat _, fs, .failed _, fs' | .mkdir _, fs, .failed _, fs'
  | .syncDir _, fs, .failed _, fs' | .createTemp _ _, fs, .failed _, fs' | .chmod _, fs, .failed _, fs'
  | .sync _, fs, .failed _, fs' | .link _ _, fs, .failed _, fs' | .rename _ _, fs, .failed _, fs'
  | .remove _, fs, .failed _, fs' | .openFile _, fs, .failed _, fs' | .fstat _, fs, .failed _, fs'
  | .readAll _ _, fs, .failed _, fs' | .openLock _, fs, .failed _, fs' | .flock _, fs, .failed _, fs' => fs' = fs
  | _, _, _, _ => False

inductive Change (temporary : String → String → String → Prop) (id : Nat) (fs : FileSystem) : Call → FileSystem → Prop
  | none (call : Call) : Change temporary id fs call fs
  | mkdir (path : String) (free : fs.entries path = none) :
    Change temporary id fs (.mkdir path) (fs.setEntry path (some .directory))
  | createTemp (dir lead name : String) (named : temporary dir lead name) (fresh : fs.issued name = .none)
    (free : fs.entries name = .none) : Change temporary id fs (.createTemp dir lead)
    { fs.newFile id name true with issued := Function.update fs.issued name (some id) }
  | write (inode : Nat) (data part : List UInt8) : Change temporary id fs (.write inode data) (fs.append inode part)
  | close (inode : Nat) : Change temporary id fs (.close inode)
    { fs with writable := Function.update fs.writable inode false }
  | link (old new : String) (inode : Nat) (there : fs.entries old = some (.file inode)) (free : fs.entries new = .none) :
    Change temporary id fs (.link old new) (fs.setEntry new (some (.file inode)))
  | rename (old new : String) (inode : Nat) (there : fs.entries old = some (.file inode)) :
    Change temporary id fs (.rename old new) ((fs.setEntry new (some (.file inode))).setEntry old .none)
  | remove (path : String) : Change temporary id fs (.remove path) (fs.setEntry path .none)
  | openLock (path : String) (free : fs.entries path = .none) :
    Change temporary id fs (.openLock path) (fs.newFile id path false)
  | flock (inode : Nat) (free : fs.holder inode = .none) :
    Change temporary id fs (.flock inode) { fs with holder := Function.update fs.holder inode (some id) }
  | closeLock (inode : Nat) : Change temporary id fs (.closeLock inode) (fs.unlock id (· = inode))

variable {temporary : String → String → String → Prop} {id : Nat} {fs fs' : FileSystem}

theorem Effect.change {call : Call} {answer : call.Res} (taken : Effect temporary id call fs answer fs') :
    Change temporary id fs call fs' := by
  cases call with
  | mkdir path =>
    cases answer with
    | ok => exact taken.2 ▸ .mkdir path taken.1
    | exist => exact taken.1 ▸ .none _
    | failed => exact (show fs' = fs from taken) ▸ .none _
    | _ => exact taken.elim
  | createTemp dir lead =>
    cases answer with
    | ok made =>
      obtain ⟨named, fresh, free, -, rfl⟩ := taken
      exact .createTemp dir lead made.1 named fresh free
    | failed => exact (show fs' = fs from taken) ▸ .none _
    | _ => exact taken.elim
  | write inode data =>
    cases answer with
    | ok => exact (show fs' = _ from taken) ▸ .write inode data data
    | failed =>
      obtain ⟨part, -, rfl⟩ := taken
      exact .write inode data part
    | _ => exact taken.elim
  | close inode =>
    cases answer with
    | ok => exact (show fs' = _ from taken) ▸ .close inode
    | failed => exact (show fs' = _ from taken) ▸ .close inode
    | _ => exact taken.elim
  | link old new =>
    cases answer with
    | ok =>
      obtain ⟨inode, there, free, rfl⟩ := taken
      exact .link old new inode there free
    | notExist => exact taken.1 ▸ .none _
    | exist => exact taken.1 ▸ .none _
    | failed => exact (show fs' = fs from taken) ▸ .none _
    | _ => exact taken.elim
  | rename old new =>
    cases answer with
    | ok =>
      obtain ⟨inode, there, -, rfl⟩ := taken
      exact .rename old new inode there
    | notExist => exact taken.1 ▸ .none _
    | failed => exact (show fs' = fs from taken) ▸ .none _
    | _ => exact taken.elim
  | remove path =>
    cases answer with
    | ok => exact taken.2.2 ▸ .remove path
    | notExist => exact taken.1 ▸ .none _
    | failed => exact (show fs' = fs from taken) ▸ .none _
    | _ => exact taken.elim
  | openLock path =>
    cases answer with
    | ok inode =>
      rcases taken with ⟨-, rfl⟩ | ⟨free, -, rfl⟩
      · exact .none _
      · exact .openLock path free
    | failed => exact (show fs' = fs from taken) ▸ .none _
    | _ => exact taken.elim
  | flock inode =>
    cases answer with
    | ok => exact taken.2 ▸ .flock inode taken.1
    | wouldBlock => exact (show fs' = fs from taken) ▸ .none _
    | failed => exact (show fs' = fs from taken) ▸ .none _
    | _ => exact taken.elim
  | closeLock inode =>
    cases answer with
    | ok => exact (show fs' = _ from taken) ▸ .closeLock inode
    | failed => exact (show fs' = _ from taken) ▸ .closeLock inode
    | _ => exact taken.elim
  | syncDir path | chmod inode | sync inode =>
    cases answer with
    | ok => exact (show fs' = fs from taken) ▸ .none _
    | failed => exact (show fs' = fs from taken) ▸ .none _
    | _ => exact taken.elim
  | lstat path | stat path | openFile path =>
    cases answer with
    | ok => exact taken.1 ▸ .none _
    | notExist => exact taken.1 ▸ .none _
    | failed => exact (show fs' = fs from taken) ▸ .none _
    | _ => exact taken.elim
  | fstat handle | readAll handle limit =>
    cases answer with
    | ok => exact taken.1 ▸ .none _
    | failed => exact (show fs' = fs from taken) ▸ .none _
    | _ => exact taken.elim

namespace FileSystem

variable {path other : String} {entry : Option Entry}

@[simp] theorem setEntry_self : (fs.setEntry path entry).entries path = entry := Function.update_self ..

theorem setEntry_of_ne (differ : other ≠ path) : (fs.setEntry path entry).entries other = fs.entries other :=
  Function.update_of_ne differ ..

@[simp] theorem setEntry_data : (fs.setEntry path entry).data = fs.data := rfl
@[simp] theorem setEntry_next : (fs.setEntry path entry).next = fs.next := rfl
@[simp] theorem setEntry_maker : (fs.setEntry path entry).maker = fs.maker := rfl
@[simp] theorem setEntry_writable : (fs.setEntry path entry).writable = fs.writable := rfl
@[simp] theorem setEntry_issued : (fs.setEntry path entry).issued = fs.issued := rfl
@[simp] theorem setEntry_holder : (fs.setEntry path entry).holder = fs.holder := rfl

theorem setEntry_kept {there : Entry} (free : fs.entries path = none) (found : fs.entries other = some there) :
    (fs.setEntry path entry).entries other = some there := by
  rw [setEntry_of_ne, found]
  rintro rfl
  rw [free] at found
  cases found

end FileSystem

def serveFile (fresh : FileSystem → String → String → String) (id : Nat) :
    (call : Call) → FileSystem → call.Res × FileSystem
  -- a file system that does not fail; `fresh` comes up with the names of temporary files
  | .lstat path, fs =>
    match fs.kind path with
    | some kind => (.ok kind, fs)
    | none => (.notExist, fs)
  | .stat path, fs =>
    match fs.entries path with
    | some entry => (.ok (entry == .directory), fs)
    | none => (.notExist, fs)
  | .mkdir path, fs =>
    match fs.entries path with
    | some _ => (.exist, fs)
    | none => (.ok (), fs.setEntry path (some .directory))
  | .syncDir _, fs | .chmod _, fs | .sync _, fs => (.ok (), fs)
  | .createTemp dir lead, fs =>
    let name := fresh fs dir lead
    if fs.issued name = none ∧ fs.entries name = none then
      (.ok (name, fs.next), { fs.newFile id name true with issued := Function.update fs.issued name (some id) })
    else (.failed "file exists", fs)
  | .write inode data, fs => (.ok (), fs.append inode data)
  | .close inode, fs => (.ok (), { fs with writable := Function.update fs.writable inode false })
  | .link old new, fs =>
    match fs.entries old, fs.entries new with
    | some (.file inode), none => (.ok (), fs.setEntry new (some (.file inode)))
    | some (.file _), some _ => (.exist, fs)
    | none, _ => (.notExist, fs)
    | some _, _ => (.failed "operation not permitted", fs)
  | .rename old new, fs =>
    match fs.entries old with
    | some (.file inode) =>
      if fs.entries new = some .directory then (.failed "file exists", fs)
      else (.ok (), (fs.setEntry new (some (.file inode))).setEntry old none)
    | none => (.notExist, fs)
    | some _ => (.failed "operation not permitted", fs)
  | .remove path, fs =>
    match fs.entries path with
    | none => (.notExist, fs)
    | some .directory => (.failed "directory not empty", fs)
    | some _ => (.ok (), fs.setEntry path none)
  | .openFile path, fs =>
    match fs.entries path with
    | none => (.notExist, fs)
    | some .directory => (.ok none, fs)
    | some (.file inode) => (.ok (some inode), fs)
    | some .symlink => (.failed "too many levels of symbolic links", fs)
  | .fstat handle, fs => (.ok (handle.elim 0 fun inode => (fs.data inode).length), fs)
  | .readAll handle limit, fs =>
    match handle with
    | some inode => (.ok ((fs.data inode).take limit), fs)
    | none => (.failed "is a directory", fs)
  | .openLock path, fs =>
    match fs.entries path with
    | none => (.ok fs.next, fs.newFile id path false)
    | some (.file inode) => (.ok inode, fs)
    | some _ => (.failed "is a directory", fs)
  | .flock inode, fs =>
    if fs.holder inode = none then (.ok (), { fs with holder := Function.update fs.holder inode (some id) })
    else (.wouldBlock, fs)
  | .closeLock inode, fs => (.ok (), fs.unlock id (· = inode))

theorem serveFile_effect {fresh : FileSystem → String → String → String}
    (named : ∀ fs dir lead, temporary dir lead (fresh fs dir lead)) (call : Call) :
    Effect temporary id call fs (serveFile fresh id call fs).1 (serveFile fresh id call fs).2 := by
  cases call with
  | syncDir | chmod | sync | write | close | closeLock => rfl
  | lstat path =>
    simp only [serveFile]
    split
    next kind found => exact ⟨rfl, found⟩
    next missing => exact ⟨rfl, by simpa [FileSystem.kind] using missing⟩
  | stat path =>
    simp only [serveFile]
    split
    next entry found => exact ⟨rfl, .inr ⟨entry, found, by simp⟩⟩
    next missing => exact ⟨rfl, .inr missing⟩
  | mkdir path =>
    simp only [serveFile]
    split
    next entry found => exact ⟨rfl, by simp [found]⟩
    next missing => exact ⟨missing, rfl⟩
  | createTemp dir lead =>
    simp only [serveFile]
    split
    next unused => exact ⟨named fs dir lead, unused.1, unused.2, rfl, rfl⟩
    next => rfl
  | link old new =>
    simp only [serveFile]
    split
    next inode there free => exact ⟨inode, there, free, rfl⟩
    next taken => exact ⟨rfl, by simp [taken]⟩
    next missing => exact ⟨rfl, missing⟩
    next => rfl
  | rename old new =>
    simp only [serveFile]
    split
    next inode there =>
      split
      next => rfl
      next file => exact ⟨inode, there, file, rfl⟩
    next missing => exact ⟨rfl, missing⟩
    next => rfl
  | remove path =>
    simp only [serveFile]
    split
    next missing => exact ⟨rfl, missing⟩
    next => rfl
    next entry file there => exact ⟨by simp [there], by simpa [there] using file, rfl⟩
  | openFile path =>
    simp only [serveFile]
    split
    next missing => exact ⟨rfl, .inr missing⟩
    next dir => exact ⟨rfl, .inr (.inl ⟨rfl, dir⟩)⟩
    next inode there => exact ⟨rfl, .inr (.inr ⟨inode, rfl, there⟩)⟩
    next => rfl
  | fstat handle =>
    refine ⟨rfl, ?_⟩
    rintro inode rfl
    rfl
  | readAll handle limit =>
    simp only [serveFile]
    split
    next inode => exact ⟨rfl, inode, rfl, rfl⟩
    next => rfl
  | openLock path =>
    simp only [serveFile]
    split
    next missing => exact .inr ⟨missing, rfl, rfl⟩
    next inode there => exact .inl ⟨there, rfl⟩
    next => rfl
  | flock inode =>
    simp only [serveFile]
    split
    next free => exact ⟨free, rfl⟩
    next => rfl

end Files
