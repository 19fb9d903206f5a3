import CometArchive.Archive.LocalSharing

set_option autoImplicit false

namespace CometArchive.Archive

open GoBytes GoError GoText Programs Programs.Fallible Files

namespace Usage

variable {u : Usage} {id : Nat} {fs fs' : FileSystem} {key path : String}

def Holds (u : Usage) (fs : FileSystem) (key : String) (object : Object) : Prop :=
  ∃ path inode, u.Places key path ∧ fs.entries path = some (.file inode) ∧ u.Known (fs.data inode) ∧
    object = ⟨fs.data inode, u.revision (fs.data inode)⟩

theorem Holds.unique {one two : Object} (first : u.Holds fs key one) (second : u.Holds fs key two) : one = two := by
  obtain ⟨path, inode, places, there, -, rfl⟩ := first
  obtain ⟨other, another, also, found, -, rfl⟩ := second
  cases Except.ok.inj (places.2.symm.trans also.2)
  cases there.symm.trans found
  rfl

open Classical in
noncomputable def objects (u : Usage) (fs : FileSystem) : ObjectStore u.contentOf where
  objects key := if held : ∃ object, u.Holds fs key object then some held.choose else none
  determined key object found := by
    split at found
    next held =>
      cases found
      obtain ⟨path, inode, -, -, known, same⟩ := held.choose_spec
      rw [same]
      exact known
    next => cases found

theorem objects_eq_some {object : Object} : (u.objects fs).objects key = some object ↔ u.Holds fs key object := by
  constructor
  · intro found
    unfold objects at found
    dsimp only at found
    split at found
    next held =>
      cases found
      exact held.choose_spec
    next => cases found
  · intro held
    unfold objects
    dsimp only
    rw [dif_pos ⟨object, held⟩]
    exact congrArg some (Holds.unique (Exists.choose_spec ⟨object, held⟩) held)

theorem objects_eq_none : (u.objects fs).objects key = none ↔ ∀ object, ¬ u.Holds fs key object := by
  rw [Option.eq_none_iff_forall_ne_some]
  simp only [ne_eq, objects_eq_some]

theorem objects_eq (same : ∀ key object, u.Holds fs' key object ↔ u.Holds fs key object) :
    u.objects fs' = u.objects fs := by
  have all : (u.objects fs').objects = (u.objects fs).objects := by
    funext key
    apply Option.ext
    intro object
    rw [objects_eq_some, objects_eq_some, same]
  generalize u.objects fs' = left at all
  generalize u.objects fs = right at all
  cases left
  cases right
  cases all
  rfl

theorem Orderly.found {inode : Nat} (orderly : u.Orderly fs) (places : u.Places key path)
    (there : fs.entries path = some (.file inode)) :
    (u.objects fs).objects key = some ⟨fs.data inode, u.revision (fs.data inode)⟩ := by
  obtain ⟨_, ⟨⟩, -, known⟩ := orderly.objects places there
  exact objects_eq_some.mpr ⟨path, inode, places, there, known, rfl⟩

theorem Places.missing (places : u.Places key path) (absent : fs.entries path = none) :
    (u.objects fs).objects key = none := by
  rw [objects_eq_none]
  rintro object ⟨other, inode, also, there, -, -⟩
  cases Except.ok.inj (places.2.symm.trans also.2)
  cases absent.symm.trans there

theorem Orderly.same_objects (orderly : u.Orderly fs)
    (entries : ∀ key path, u.Places key path → fs'.entries path = fs.entries path)
    (data : ∀ inode, inode < fs.next → fs.writable inode = false → fs'.data inode = fs.data inode) :
    u.objects fs' = u.objects fs := by
  -- objects change only where keys lead
  apply objects_eq
  intro key object
  have same {path : String} {inode : Nat} (places : u.Places key path) (there : fs.entries path = some (.file inode)) :
      fs'.data inode = fs.data inode := by
    obtain ⟨_, ⟨⟩, closed, -⟩ := orderly.objects places there
    exact data inode (orderly.used there) closed
  constructor
  · rintro ⟨path, inode, places, there, known, rfl⟩
    rw [entries key path places] at there
    rw [same places there] at known ⊢
    exact ⟨path, inode, places, there, known, rfl⟩
  · rintro ⟨path, inode, places, there, known, rfl⟩
    rw [← same places there] at known ⊢
    exact ⟨path, inode, places, (entries key path places).trans there, known, rfl⟩

theorem Places.writes {inode : Nat} (places : u.Places key path) (known : u.Known (fs.data inode)) :
    (u.objects fs).Writes key ⟨fs.data inode, u.revision (fs.data inode)⟩
      (u.objects (fs.setEntry path (some (.file inode)))) := by
  funext other
  apply Option.ext
  intro object
  rw [objects_eq_some]
  by_cases same : other = key
  · subst same
    rw [Function.update_self, Option.some.injEq]
    constructor
    · rintro ⟨there, number, also, found, -, rfl⟩
      cases Except.ok.inj (places.2.symm.trans also.2)
      rw [FileSystem.setEntry_self] at found
      cases found
      rfl
    · rintro rfl
      exact ⟨path, inode, places, FileSystem.setEntry_self, known, rfl⟩
  · rw [Function.update_of_ne same, objects_eq_some]
    have elsewhere {there : String} (also : u.Places other there) :
        (fs.setEntry path (some (.file inode))).entries there = fs.entries there := by
      apply FileSystem.setEntry_of_ne
      rintro rfl
      exact same (also.inj places)
    constructor
    · rintro ⟨there, number, also, found, rest⟩
      exact ⟨there, number, also, (elsewhere also).symm.trans found, rest⟩
    · rintro ⟨there, number, also, found, rest⟩
      exact ⟨there, number, also, (elsewhere also).trans found, rest⟩

/-- Only the calls that give a key its file can be seen. -/
theorem Proper.unseen {call : Call} (layout : u.Layout) (orderly : u.Orderly fs) (proper : u.Proper id fs call)
    (change : Change temporaryName id fs call fs') (unlinked : ∀ old new, call ≠ .link old new)
    (unnamed : ∀ old new, call ≠ .rename old new) : u.objects fs' = u.objects fs := by
  obtain ⟨-, others⟩ := proper.keeps layout orderly change
  refine orderly.same_objects ?_ fun inode used closed => ((others (id + 1) id.succ_ne_self).closed inode used closed).2
  intro key object places
  cases change with
  | link old new => exact absurd rfl (unlinked old new)
  | rename old new => exact absurd rfl (unnamed old new)
  | mkdir path free =>
    apply FileSystem.setEntry_of_ne
    rintro rfl
    exact layout.directory places proper
  | createTemp dir lead name named fresh free =>
    apply FileSystem.setEntry_of_ne
    rintro rfl
    exact layout.temporary places dir lead proper named
  | remove path => exact FileSystem.setEntry_of_ne (orderly.not_issued layout places proper)
  | openLock path free =>
    obtain ⟨other, rfl⟩ := proper
    exact FileSystem.setEntry_of_ne (layout.lock places other)
  | _ => rfl

def Quiet (u : Usage) : LocalOp → Prop
  -- the process itself cannot tell whether such a call was made
  | .file (.mkdir path) => u.Directory path
  | .file (.lstat _) | .file (.stat _) | .file (.syncDir _) | .file (.chmod _) | .file (.sync _)
  | .file (.openFile _) | .file (.fstat _) | .file (.readAll _ _) | .other _ => True
  | _ => False

theorem Quiet.keeps (layout : u.Layout) (orderly : u.Orderly fs) {low : LocalOp} {answer : low.Res} (quiet : u.Quiet low)
    (taken : LocalEffect id low fs answer fs') :
    u.Orderly fs' ∧ (∀ other, u.Undisturbed other fs fs') ∧ u.objects fs' = u.objects fs := by
  cases low with
  | other op =>
    cases (show fs' = fs from taken)
    exact ⟨orderly, fun other => .refl other fs, rfl⟩
  | file call =>
    have change : Change temporaryName id fs call fs' := Files.Effect.change taken
    -- nobody is named in these changes, so anybody may have made them
    have anyone : ∀ other, u.Proper other fs call ∧ Change temporaryName other fs call fs' ∧
        (∀ old new, call ≠ .link old new) ∧ ∀ old new, call ≠ .rename old new := by
      intro other
      cases change with
      | none call =>
        cases call with
        | mkdir => exact ⟨quiet, .none _, by rintro _ _ ⟨⟩, by rintro _ _ ⟨⟩⟩
        | lstat | stat | syncDir | chmod | sync | openFile | fstat | readAll =>
          exact ⟨trivial, .none _, by rintro _ _ ⟨⟩, by rintro _ _ ⟨⟩⟩
        | _ => exact quiet.elim
      | mkdir path free => exact ⟨quiet, .mkdir path free, by rintro _ _ ⟨⟩, by rintro _ _ ⟨⟩⟩
      | _ => exact quiet.elim
    refine ⟨?_, ?_, ?_⟩
    · exact ((anyone id).1.keeps layout orderly (anyone id).2.1).1
    · intro other
      obtain ⟨proper, change, -⟩ := anyone (other + 1)
      exact (proper.keeps layout orderly change).2 other (Nat.succ_ne_self other).symm
    · obtain ⟨proper, change, unlinked, unnamed⟩ := anyone id
      exact proper.unseen layout orderly change unlinked unnamed

end Usage

def PlainError (err : Err) : Prop := ∀ target, err.is target = false

theorem plainError_of {α : Type} {result : Except Err α} {err : Err} (plain : Plain result)
    (failed : result = .error err) : PlainError err := fun target => plain err target failed

theorem answered_plain {α : Type} (answer : Answer α) : Plain (answered answer) := by
  cases answer with
  | ok value => exact .ok value
  | _ => exact .new _

theorem unlessMissing_plain {α : Type} (answer : Answer α) : Plain (unlessMissing answer) := by
  cases answer with
  | ok value => exact .ok (some value)
  | notExist => exact .ok none
  | _ => exact .new _

theorem mkdirUnlessThere_plain (answer : Answer Unit) : Plain (mkdirUnlessThere answer) := by
  cases answer with
  | ok value => exact .ok value
  | exist => exact .ok ()
  | _ => exact .new _

theorem filepathRel_plain (base target : String) : Plain (filepathRel base target) := by
  unfold filepathRel
  dsimp only
  split_ifs
  all_goals first | exact .ok _ | exact .new _

namespace Usage

variable {u : Usage} {trace : Trace LocalOp LocalOp.Res}

def Quietly (u : Usage) {α : Type} (post : α → Prop) (p : LocalM α) (trace : Trace LocalOp LocalOp.Res) : Prop :=
  p.Ok (fun _ low => u.Quiet low) (fun _ err => PlainError err) (fun _ value => post value) trace

theorem lstat_quiet (path : String) : u.Quietly (fun _ => True) (lstat path) trace :=
  Ok.attempt trivial (fun _ _ failed => plainError_of (unlessMissing_plain _) failed) fun _ _ _ => trivial

theorem syncDirectory_quiet (path : String) : u.Quietly (fun _ => True) (syncDirectory path) trace :=
  Ok.attempt trivial (fun _ _ failed => plainError_of (answered_plain _) failed) fun _ _ _ => trivial

theorem rejectSymlinkParts_quiet (path current : String) (parts : List (List Char)) :
    u.Quietly (fun _ => True) (rejectSymlinkParts path current parts) trace := by
  induction parts generalizing current trace with
  | nil => exact Ok.pure trivial
  | cons part rest ih =>
    unfold rejectSymlinkParts
    split
    · exact ih current
    · refine Ok.bind (Ok.mono (lstat_quiet _) (fun _ _ plain => plain) ?_)
      intro trace found _
      cases found with
      | none => exact Ok.pure trivial
      | some kind =>
        cases kind with
        | symlink =>
          exact Ok.lift (fun _ failed => plainError_of (.new _) failed) (by rintro _ ⟨⟩)
        | directory => exact ih _
        | file size => exact ih _

theorem rejectLocalObjectSymlink_quiet (root path : String) :
    u.Quietly (fun _ => True) (rejectLocalObjectSymlink root path) trace :=
  Ok.check (fun _ failed => plainError_of (filepathRel_plain _ _) failed) fun _ _ => rejectSymlinkParts_quiet path root _

theorem missingDirectories_quiet (fuel : Nat) {dir : String} {missing : List String}
    (above : ∀ n, u.Directory (filepathDir^[n] dir)) (sofar : ∀ dir ∈ missing, u.Directory dir) :
    u.Quietly (fun found => ∀ dir ∈ found, u.Directory dir) (missingDirectories fuel dir missing) trace := by
  induction fuel generalizing dir missing trace with
  | zero =>
    exact Ok.lift (fun _ failed => plainError_of (.new _) failed) (by rintro _ ⟨⟩)
  | succ fuel ih =>
    refine Ok.bind (Ok.attempt trivial (fun _ _ failed => plainError_of (unlessMissing_plain _) failed) ?_)
    intro answer found _
    cases found with
    | some isDir =>
      exact Ok.check (fun _ refused => plainError_of (.refuse fun _ => rfl) refused) fun _ _ => Ok.pure sofar
    | none =>
      refine ih (fun n => above (n + 1)) ?_
      intro other among
      rcases List.mem_cons.mp among with rfl | old
      · exact above 0
      · exact sofar other old

theorem makeDirectories_quiet {dirs : List String} (mine : ∀ dir ∈ dirs, u.Directory dir) :
    u.Quietly (fun _ => True) (makeDirectories dirs) trace := by
  induction dirs generalizing trace with
  | nil => exact Ok.pure trivial
  | cons dir rest ih =>
    refine Ok.bind (Ok.attempt (mine dir List.mem_cons_self) (fun _ _ failed => plainError_of (mkdirUnlessThere_plain _) failed) ?_)
    intro answer _ _
    refine Ok.bind (Ok.mono (syncDirectory_quiet _) (fun _ _ plain => plain) ?_)
    intro trace _ _
    exact ih fun other among => mine other (List.mem_cons_of_mem _ among)

theorem makeDirectoriesDurable_quiet {path : String} (above : ∀ n, u.Directory (filepathDir^[n] (filepathClean path))) :
    u.Quietly (fun _ => True) (makeDirectoriesDurable path) trace := by
  refine Ok.bind (Ok.mono (missingDirectories_quiet _ above (by rintro _ ⟨⟩)) (fun _ _ plain => plain) ?_)
  intro trace found mine
  exact makeDirectories_quiet mine

theorem prepare_quiet {key path : String} (places : u.Places key path) :
    u.Quietly (fun _ => True) (u.store.prepare path) trace := by
  refine Ok.bind (Ok.mono (rejectLocalObjectSymlink_quiet _ _) (fun _ _ plain => plain) ?_)
  intro trace _ _
  refine Ok.bind (Ok.mono (makeDirectoriesDurable_quiet ?_) (fun _ _ plain => plain) ?_)
  · exact fun n => .inl ⟨key, path, n, places, rfl⟩
  · intro trace _ _
    exact rejectLocalObjectSymlink_quiet _ _

end Usage

end CometArchive.Archive
