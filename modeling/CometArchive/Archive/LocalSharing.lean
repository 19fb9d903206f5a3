import CometArchive.Archive.LocalStore

set_option autoImplicit false

namespace CometArchive.Archive

open GoBytes GoError GoText Programs Programs.Fallible Files

/-- How a local store is used: which keys are uploaded to and which are swapped. -/
structure Usage where
  codec : Codec
  store : LocalObjectStore
  contentOf : String → Bytes
  uploads : String → Prop
  swaps : String → Prop

def LocalEffect (id : Nat) : (op : LocalOp) → FileSystem → op.Res → FileSystem → Prop
  | .file call, fs, answer, fs' => Files.Effect temporaryName id call fs answer fs'
  | .other _, fs, _, fs' => fs' = fs

def temporaryLeads : List String := [".put-", ".put-if-absent-"]

namespace Usage

variable (u : Usage)

def revision (data : Bytes) : String := objectRevision u.codec data

-- the revision tells the contents
def Known (data : Bytes) : Prop := u.revision data ≠ "" ∧ u.contentOf (u.revision data) = data

def Places (key path : String) : Prop := (u.uploads key ∨ u.swaps key) ∧ pathForKey u.store.root key = .ok path

def lockPath (key : String) : String := u.store.lockPath u.codec key

def Directory (path : String) : Prop :=
  -- where directories are made: those of the objects, that of the locks, and the ones above them
  (∃ key object n, u.Places key object ∧ path = filepathDir^[n] (filepathClean (filepathDir object))) ∨
    ∃ n, path = filepathDir^[n] (filepathClean u.store.lockDir)

structure Layout : Prop where
  once : ∀ key, u.uploads key → ¬ u.swaps key
  directory : ∀ {key path}, u.Places key path → ¬ u.Directory path
  lock : ∀ {key path}, u.Places key path → ∀ other, path ≠ u.lockPath other
  temporary : ∀ {key path}, u.Places key path → ∀ dir, ∀ lead ∈ temporaryLeads, ¬ temporaryName dir lead path
  lockName : ∀ key dir, ∀ lead ∈ temporaryLeads, ¬ temporaryName dir lead (u.lockPath key)

structure Orderly (fs : FileSystem) : Prop where
  -- a key leads to nothing or to a finished file
  objects : ∀ {key path entry}, u.Places key path → fs.entries path = some entry →
    ∃ inode, entry = .file inode ∧ fs.writable inode = false ∧ u.Known (fs.data inode)
  used : ∀ {path inode}, fs.entries path = some (.file inode) → inode < fs.next
  named : ∀ {name id}, fs.issued name = some id → ∃ dir, ∃ lead ∈ temporaryLeads, temporaryName dir lead name

/-- What a process relies on while others run. -/
structure Undisturbed (id : Nat) (fs fs' : FileSystem) : Prop where
  next : fs.next ≤ fs'.next
  closed : ∀ inode, inode < fs.next → fs.writable inode = false →
    fs'.writable inode = false ∧ fs'.data inode = fs.data inode
  mine : ∀ inode, inode < fs.next → fs.maker inode = id →
    fs'.maker inode = id ∧ fs'.data inode = fs.data inode ∧ fs'.writable inode = fs.writable inode
  issued : ∀ name, fs.issued name = some id → fs'.issued name = some id
  temps : ∀ name entry, fs.issued name = some id → fs.entries name = some entry → fs'.entries name = some entry
  locks : ∀ key entry, fs.entries (u.lockPath key) = some entry → fs'.entries (u.lockPath key) = some entry
  holds : ∀ inode, fs'.holder inode = some id ↔ fs.holder inode = some id
  guarded : ∀ key path lock, u.swaps key → u.Places key path → fs.entries (u.lockPath key) = some (.file lock) →
    fs.holder lock = some id → fs'.entries path = fs.entries path

variable {u} {id : Nat} {fs fs' fs'' : FileSystem}

theorem Places.inj {key other path : String} (one : u.Places key path) (two : u.Places other path) : key = other := by
  obtain ⟨-, first⟩ := pathForKey_eq_ok.mp one.2
  obtain ⟨-, second⟩ := pathForKey_eq_ok.mp two.2
  exact underRoot_inj (first.symm.trans second)

theorem Undisturbed.refl (id : Nat) (fs : FileSystem) : u.Undisturbed id fs fs where
  next := le_rfl
  closed _ _ closed := ⟨closed, rfl⟩
  mine _ _ mine := ⟨mine, rfl, rfl⟩
  issued _ issued := issued
  temps _ _ _ there := there
  locks _ _ there := there
  holds _ := Iff.rfl
  guarded _ _ _ _ _ _ _ := rfl

theorem Undisturbed.trans (first : u.Undisturbed id fs fs') (second : u.Undisturbed id fs' fs'') :
    u.Undisturbed id fs fs'' where
  next := first.next.trans second.next
  closed inode used closed := by
    obtain ⟨still, same⟩ := first.closed inode used closed
    obtain ⟨last, again⟩ := second.closed inode (used.trans_le first.next) still
    exact ⟨last, again.trans same⟩
  mine inode used mine := by
    obtain ⟨still, same, open'⟩ := first.mine inode used mine
    obtain ⟨last, again, opened⟩ := second.mine inode (used.trans_le first.next) still
    exact ⟨last, again.trans same, opened.trans open'⟩
  issued name issued := second.issued name (first.issued name issued)
  temps name entry issued there :=
    second.temps name entry (first.issued name issued) (first.temps name entry issued there)
  locks key entry there := second.locks key entry (first.locks key entry there)
  holds inode := (second.holds inode).trans (first.holds inode)
  guarded key path lock swapped places there held := by
    rw [second.guarded key path lock swapped places (first.locks key _ there) ((first.holds lock).mpr held),
      first.guarded key path lock swapped places there held]

def Locked (u : Usage) (id : Nat) (key : String) (fs : FileSystem) : Prop :=
  ∃ lock, fs.entries (u.lockPath key) = some (.file lock) ∧ fs.holder lock = some id

def Proper (u : Usage) (id : Nat) (fs : FileSystem) : Call → Prop
  -- what a process may ask of the operating system
  | .mkdir path => u.Directory path
  | .createTemp _ lead => lead ∈ temporaryLeads
  | .write inode _ => fs.maker inode = id ∧ fs.writable inode = true
  | .close inode => fs.maker inode = id
  | .link old new => ∃ key, u.uploads key ∧ u.Places key new ∧ ∀ inode, fs.entries old = some (.file inode) →
    fs.writable inode = false ∧ u.Known (fs.data inode)
  | .rename old new => fs.issued old = some id ∧ (∃ key, u.swaps key ∧ u.Places key new ∧ u.Locked id key fs) ∧
    ∀ inode, fs.entries old = some (.file inode) → fs.writable inode = false ∧ u.Known (fs.data inode)
  | .remove path => fs.issued path = some id
  | .openLock path => ∃ key, path = u.lockPath key
  | _ => True

theorem Orderly.not_issued (layout : u.Layout) (orderly : u.Orderly fs) {key path : String} (places : u.Places key path)
    {name : String} {owner : Nat} (issued : fs.issued name = some owner) : path ≠ name := by
  rintro rfl
  obtain ⟨dir, lead, among, named⟩ := orderly.named issued
  exact layout.temporary places dir lead among named

theorem Orderly.lock_not_issued (layout : u.Layout) (orderly : u.Orderly fs) {key name : String} {owner : Nat}
    (issued : fs.issued name = some owner) : u.lockPath key ≠ name := by
  rintro rfl
  obtain ⟨dir, lead, among, named⟩ := orderly.named issued
  exact layout.lockName key dir lead among named

structure Older (fs fs' : FileSystem) : Prop where
  next : fs.next ≤ fs'.next
  data : ∀ inode, inode < fs.next → fs'.data inode = fs.data inode
  writable : ∀ inode, inode < fs.next → fs'.writable inode = fs.writable inode
  maker : ∀ inode, inode < fs.next → fs'.maker inode = fs.maker inode

theorem Older.setEntry (path : String) (entry : Option Entry) : Older fs (fs.setEntry path entry) :=
  ⟨le_rfl, fun _ _ => rfl, fun _ _ => rfl, fun _ _ => rfl⟩

theorem Older.newFile (path : String) (writable : Bool) : Older fs (fs.newFile id path writable) where
  next := Nat.le_succ _
  data _ used := Function.update_of_ne used.ne ..
  writable _ used := Function.update_of_ne used.ne ..
  maker _ used := Function.update_of_ne used.ne ..

theorem Older.issuing (older : Older fs fs') (issued : String → Option Nat) : Older fs { fs' with issued := issued } :=
  ⟨older.next, older.data, older.writable, older.maker⟩

variable {path : String} {entry : Entry}

theorem Undisturbed.adding (free : fs.entries path = none)
    (entries : fs'.entries = Function.update fs.entries path (some entry)) (older : Older fs fs')
    (issued : ∀ name, fs.issued name = some id → fs'.issued name = some id) (holder : fs'.holder = fs.holder)
    (unswapped : ∀ key, u.swaps key → ¬ u.Places key path) : u.Undisturbed id fs fs' := by
  have kept {other : String} {there : Entry} (found : fs.entries other = some there) :
      fs'.entries other = some there := by
    rw [entries, Function.update_of_ne, found]
    rintro rfl
    cases free.symm.trans found
  refine ⟨older.next, ?_, ?_, issued, ?_, ?_, ?_, ?_⟩
  · intro inode used closed
    exact ⟨(older.writable inode used).trans closed, older.data inode used⟩
  · intro inode used mine
    exact ⟨(older.maker inode used).trans mine, older.data inode used, older.writable inode used⟩
  · intro name there _ found
    exact kept found
  · intro key there found
    exact kept found
  · intro inode
    rw [holder]
  · intro key object lock swapped places _ _
    rw [entries, Function.update_of_ne]
    rintro rfl
    exact unswapped key swapped places

theorem Undisturbed.issuing {maker : Nat} (id : Nat) (free : fs.entries path = none) (fresh : fs.issued path = none)
    (unused : ∀ key, ¬ u.Places key path) : u.Undisturbed id fs
      { fs.newFile maker path true with issued := Function.update fs.issued path (some maker) } := by
  refine .adding free rfl ((Older.newFile path true).issuing _) ?_ rfl fun key _ places => unused key places
  intro name issued
  dsimp only
  rw [Function.update_of_ne]
  · exact issued
  · rintro rfl
    cases fresh.symm.trans issued

theorem Orderly.adding (orderly : u.Orderly fs)
    (entries : fs'.entries = Function.update fs.entries path (some entry)) (older : Older fs fs')
    (named : ∀ name owner, fs'.issued name = some owner → ∃ dir, ∃ lead ∈ temporaryLeads, temporaryName dir lead name)
    (used : ∀ inode, entry = .file inode → inode < fs'.next)
    (object : ∀ key, u.Places key path →
      ∃ inode, entry = .file inode ∧ fs'.writable inode = false ∧ u.Known (fs'.data inode)) : u.Orderly fs' := by
  refine ⟨?_, ?_, fun issued => named _ _ issued⟩
  · intro key other there places found
    by_cases same : other = path
    · subst same
      rw [entries, Function.update_self] at found
      cases found
      exact object key places
    · rw [entries, Function.update_of_ne same] at found
      obtain ⟨inode, rfl, closed, known⟩ := orderly.objects places found
      have old := orderly.used found
      exact ⟨inode, rfl, (older.writable inode old).trans closed, by rwa [older.data inode old]⟩
  · intro other inode found
    by_cases same : other = path
    · subst same
      rw [entries, Function.update_self] at found
      cases found
      exact used inode rfl
    · rw [entries, Function.update_of_ne same] at found
      exact (orderly.used found).trans_le older.next

theorem Undisturbed.clearing {other : Nat} (layout : u.Layout) (orderly : u.Orderly fs) (given : fs.issued path = some id)
    (differ : other ≠ id) : u.Undisturbed other fs (fs.setEntry path none) := by
  refine ⟨le_rfl, fun _ _ closed => ⟨closed, rfl⟩, fun _ _ mine => ⟨mine, rfl, rfl⟩, fun _ issued => issued, ?_, ?_,
    fun _ => Iff.rfl, ?_⟩
  · intro name there issued found
    rw [FileSystem.setEntry_of_ne, found]
    rintro rfl
    cases issued.symm.trans given
    exact differ rfl
  · intro key there found
    rw [FileSystem.setEntry_of_ne (orderly.lock_not_issued layout given), found]
  · intro key object lock _ places _ _
    exact FileSystem.setEntry_of_ne (orderly.not_issued layout places given)

theorem Orderly.clearing (orderly : u.Orderly fs) (path : String) : u.Orderly (fs.setEntry path none) := by
  have still {other : String} {there : Entry} (found : (fs.setEntry path none).entries other = some there) :
      fs.entries other = some there := by
    by_cases same : other = path
    · subst same
      rw [FileSystem.setEntry_self] at found
      cases found
    · rwa [FileSystem.setEntry_of_ne same] at found
  exact ⟨fun places found => orderly.objects places (still found), fun found => orderly.used (still found), orderly.named⟩

theorem Undisturbed.swapping {key : String} {other : Nat} (layout : u.Layout) (orderly : u.Orderly fs)
    (places : u.Places key path) (locked : u.Locked id key fs) (differ : other ≠ id) :
    u.Undisturbed other fs (fs.setEntry path (some entry)) := by
  -- the holder of the lock swaps an object
  refine ⟨le_rfl, fun _ _ closed => ⟨closed, rfl⟩, fun _ _ mine => ⟨mine, rfl, rfl⟩, fun _ issued => issued, ?_, ?_,
    fun _ => Iff.rfl, ?_⟩
  · intro name there issued found
    rw [FileSystem.setEntry_of_ne (orderly.not_issued layout places issued).symm, found]
  · intro guard there found
    rw [FileSystem.setEntry_of_ne (layout.lock places guard).symm, found]
  · intro guard object lock _ theirs found held
    apply FileSystem.setEntry_of_ne
    rintro rfl
    -- two processes cannot hold the lock of one key
    cases places.inj theirs
    obtain ⟨mine, there, holding⟩ := locked
    cases there.symm.trans found
    cases holding.symm.trans held
    exact differ rfl

theorem Orderly.swapping {inode : Nat} (orderly : u.Orderly fs) (path : String) (used : inode < fs.next) (closed : fs.writable inode = false) (known : u.Known (fs.data inode)) :
    u.Orderly (fs.setEntry path (some (.file inode))) :=
  orderly.adding rfl (.setEntry ..) (fun _ _ issued => orderly.named issued) (by rintro _ ⟨⟩; exact used)
    fun _ _ => ⟨inode, rfl, closed, known⟩

theorem Undisturbed.unlocking {other : Nat} (which : Nat → Prop) [DecidablePred which] (differ : other ≠ id) :
    u.Undisturbed other fs (fs.unlock id which) := by
  refine { Undisturbed.refl other fs with holds := ?_, guarded := fun _ _ _ _ _ _ _ => rfl }
  intro inode
  change (if which inode ∧ fs.holder inode = some id then none else fs.holder inode) = some other ↔ _
  split
  next released =>
    rw [released.2]
    constructor
    · rintro ⟨⟩
    · rintro ⟨⟩
      exact absurd rfl differ
  next => exact Iff.rfl

theorem Proper.keeps {call : Call} (layout : u.Layout) (orderly : u.Orderly fs) (proper : u.Proper id fs call)
    (change : Change temporaryName id fs call fs') :
    u.Orderly fs' ∧ ∀ other, other ≠ id → u.Undisturbed other fs fs' := by
  cases change with
  | none => exact ⟨orderly, fun other _ => .refl other fs⟩
  | mkdir path free =>
    constructor
    · refine orderly.adding rfl (.setEntry ..) (fun _ _ issued => orderly.named issued) (by rintro _ ⟨⟩) ?_
      intro key places
      exact absurd proper (layout.directory places)
    · intro other _
      refine .adding free rfl (.setEntry ..) (fun _ issued => issued) rfl ?_
      intro key _ places
      exact layout.directory places proper
  | createTemp dir lead name named fresh free =>
    have unused : ∀ key, ¬ u.Places key name := fun key places => layout.temporary places dir lead proper named
    constructor
    · refine orderly.adding rfl ((Older.newFile name true).issuing _) ?_ ?_ fun key places => absurd places (unused key)
      · intro other owner issued
        by_cases same : other = name
        · subst same
          exact ⟨dir, lead, proper, named⟩
        · dsimp only at issued
          rw [Function.update_of_ne same] at issued
          exact orderly.named issued
      · rintro inode ⟨⟩
        exact Nat.lt_succ_self _
    · intro other _
      exact .issuing other free fresh unused
  | write inode data part =>
    obtain ⟨mine, open'⟩ := proper
    have others {other : Nat} (differ : other ≠ inode) : (fs.append inode part).data other = fs.data other :=
      Function.update_of_ne differ ..
    have closed {other : Nat} (closed : fs.writable other = false) : other ≠ inode := by
      rintro rfl
      cases open'.symm.trans closed
    constructor
    · refine ⟨?_, orderly.used, fun issued => orderly.named issued⟩
      intro key path entry places found
      obtain ⟨object, rfl, finished, known⟩ := orderly.objects places found
      exact ⟨object, rfl, finished, by rwa [others (closed finished)]⟩
    · intro other differ
      refine { Undisturbed.refl other fs with closed := ?_, mine := ?_, guarded := fun _ _ _ _ _ _ _ => rfl }
      · intro object _ finished
        exact ⟨finished, others (closed finished)⟩
      · intro object _ theirs
        refine ⟨theirs, others ?_, rfl⟩
        rintro rfl
        exact differ (theirs.symm.trans mine)
  | close inode =>
    have closes {object : Nat} (finished : fs.writable object = false) :
        Function.update fs.writable inode false object = false := by
      by_cases same : object = inode
      · rw [same, Function.update_self]
      · rw [Function.update_of_ne same, finished]
    constructor
    · refine ⟨?_, orderly.used, fun issued => orderly.named issued⟩
      intro key path entry places found
      obtain ⟨object, rfl, finished, known⟩ := orderly.objects places found
      exact ⟨object, rfl, closes finished, known⟩
    · intro other differ
      refine { Undisturbed.refl other fs with
        closed := fun object _ finished => ⟨closes finished, rfl⟩, mine := ?_, guarded := fun _ _ _ _ _ _ _ => rfl }
      intro object _ theirs
      refine ⟨theirs, rfl, Function.update_of_ne ?_ ..⟩
      rintro rfl
      exact differ (theirs.symm.trans proper)
  | link old new inode there free =>
    obtain ⟨key, uploaded, places, finished⟩ := proper
    obtain ⟨closed, known⟩ := finished inode there
    constructor
    · exact orderly.swapping new (orderly.used there) closed known
    · intro other _
      refine .adding free rfl (.setEntry ..) (fun _ issued => issued) rfl ?_
      intro guard swapped theirs
      cases places.inj theirs
      exact layout.once key uploaded swapped
  | rename old new inode there =>
    obtain ⟨given, ⟨key, -, places, locked⟩, finished⟩ := proper
    obtain ⟨closed, known⟩ := finished inode there
    have swapped := orderly.swapping new (orderly.used there) closed known
    constructor
    · exact swapped.clearing old
    · intro other differ
      exact (Undisturbed.swapping layout orderly places locked differ).trans (.clearing layout swapped given differ)
  | remove path => exact ⟨orderly.clearing path, fun other differ => .clearing layout orderly proper differ⟩
  | openLock path free =>
    obtain ⟨key, rfl⟩ := proper
    constructor
    · refine orderly.adding rfl (.newFile ..) (fun _ _ issued => orderly.named issued) ?_ ?_
      · rintro inode ⟨⟩
        exact Nat.lt_succ_self _
      · intro other places
        exact absurd rfl (layout.lock places key)
    · intro other _
      refine .adding free rfl (.newFile ..) (fun _ issued => issued) rfl ?_
      intro guard _ places
      exact layout.lock places key rfl
  | flock inode free =>
    refine ⟨⟨orderly.objects, orderly.used, fun issued => orderly.named issued⟩, ?_⟩
    intro other differ
    refine { Undisturbed.refl other fs with holds := ?_, guarded := fun _ _ _ _ _ _ _ => rfl }
    intro lock
    dsimp only
    by_cases same : lock = inode
    · subst same
      rw [Function.update_self, free]
      constructor
      · rintro ⟨⟩
        exact absurd rfl differ
      · rintro ⟨⟩
    · rw [Function.update_of_ne same]
  | closeLock inode =>
    exact ⟨⟨orderly.objects, orderly.used, fun issued => orderly.named issued⟩, fun other differ => .unlocking (· = inode) differ⟩

end Usage

end CometArchive.Archive
