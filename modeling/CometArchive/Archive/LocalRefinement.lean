import CometArchive.Archive.LocalLayout
import CometArchive.Archive.LocalObjects

set_option autoImplicit false

namespace CometArchive.Archive

open GoBytes GoError GoText Programs Programs.Fallible Files

namespace Usage

variable {u : Usage} {id : Nat} {fs fs' fs'' : FileSystem} {key path : String}

def conduct (u : Usage) : Conduct FileSystem LocalOp LocalOp.Res where
  effect := LocalEffect
  dies := FileSystem.dies
  inv := u.Orderly
  rely := u.Undisturbed
  rely_refl := Undisturbed.refl
  rely_trans := Undisturbed.trans
  death orderly died := by
    cases died
    exact ⟨⟨orderly.objects, orderly.used, fun issued => orderly.named issued⟩, fun other differ => .unlocking _ differ⟩

abbrev Stored (u : Usage) : (op : Op) → ObjectStore u.contentOf → op.Res → ObjectStore u.contentOf → Prop :=
  Effect u.codec fun data stored => stored = data

abbrev Part (u : Usage) {α : Type} (id : Nat) (op : Op) (fail : Err → Option (op.Res → Prop) → FileSystem → Prop)
    (post : α → Option (op.Res → Prop) → FileSystem → Prop) (p : LocalM α) (g : Option (op.Res → Prop))
    (fs : FileSystem) : Prop :=
  p.Careful u.conduct id (Takes u.Stored u.objects op) fail post g fs

variable {op : Op} {α β : Type} {fail : Err → Option (op.Res → Prop) → FileSystem → Prop}
  {post : α → Option (op.Res → Prop) → FileSystem → Prop} {g : Option (op.Res → Prop)}

theorem Quietly.part {holds : α → Prop} {p : LocalM α} (layout : u.Layout) (quiet : u.Quietly holds p []) :
    u.Part id op (fun err g' t => g' = g ∧ u.Undisturbed id fs t ∧ PlainError err)
      (fun value g' t => g' = g ∧ u.Undisturbed id fs t ∧ holds value) p g fs := by
  refine Careful.mono (Ok.careful quiet ?_) ?_ ?_
  · intro low t answer t' quiet orderly taken
    obtain ⟨kept, others, unseen⟩ := Quiet.keeps layout orderly quiet taken
    exact ⟨kept, others, .inl ⟨rfl, unseen⟩⟩
  · rintro err _ t _ ⟨rfl, meanwhile, -, plain⟩
    exact ⟨rfl, meanwhile, plain⟩
  · rintro value _ t _ ⟨rfl, meanwhile, -, holds⟩
    exact ⟨rfl, meanwhile, holds⟩

theorem Quietly.then {holds : β → Prop} {p : LocalM β} {f : β → LocalM α} (layout : u.Layout)
    (quiet : u.Quietly holds p [])
    (failing : ∀ err t, PlainError err → u.Undisturbed id fs t → u.Orderly t → fail err g t)
    (rest : ∀ value t, holds value → u.Undisturbed id fs t → u.Orderly t → u.Part id op fail post (f value) g t) :
    u.Part id op fail post (p >>= f) g fs := by
  refine Careful.bind (Careful.mono (quiet.part layout) ?_ ?_)
  · rintro err _ t _ ⟨rfl, meanwhile, plain⟩ later further orderly
    exact failing err later plain (meanwhile.trans further) orderly
  · rintro value _ t orderly ⟨rfl, meanwhile, holds⟩
    exact rest value t holds meanwhile orderly

def Looks : Call → Prop
  | .lstat _ | .stat _ | .openFile _ | .fstat _ | .readAll _ _ => True
  | _ => False

theorem Looks.same {call : Call} {answer : call.Res} (looks : Looks call)
    (taken : Files.Effect temporaryName id call fs answer fs') : fs' = fs := by
  cases call with
  | lstat | stat | openFile | fstat | readAll =>
    cases answer with
    | ok => exact taken.1
    | notExist => first | exact taken.1 | exact taken.elim
    | failed => exact taken
    | _ => exact taken.elim
  | _ => exact looks.elim

theorem Looks.part {call : Call} {outcome : call.Res → Except Err α} (looks : Looks call)
    (plain : ∀ answer, Plain (outcome answer))
    (failing : ∀ err t, PlainError err → u.Undisturbed id fs t → u.Orderly t → fail err g t)
    (seen : ∀ t answer value, u.Undisturbed id fs t → u.Orderly t → Files.Effect temporaryName id call t answer t →
      outcome answer = .ok value → ∃ g', Takes u.Stored u.objects op g t t g' ∧
        ∀ later, u.Undisturbed id t later → u.Orderly later → post value g' later) :
    u.Part id op fail post (attempt (.file call) outcome) g fs := by
  refine Careful.attempt ?_
  intro t later orderly answer t' taken
  cases Looks.same looks taken
  refine ⟨orderly, fun other _ => .refl other t, ?_⟩
  cases result : outcome answer with
  | error err =>
    refine ⟨g, .inl ⟨rfl, rfl⟩, ?_, by rintro _ _ ⟨⟩⟩
    rintro _ last ⟨⟩ further orderly
    exact failing err last (plainError_of (plain answer) result) (later.trans further) orderly
  | ok value =>
    obtain ⟨g', taken, ended⟩ := seen t answer value later orderly taken result
    refine ⟨g', taken, by rintro _ _ ⟨⟩, ?_⟩
    rintro _ last ⟨⟩ further orderly
    exact ended last further orderly

theorem Looks.then {call : Call} {outcome : call.Res → Except Err β} {f : β → LocalM α} (looks : Looks call)
    (plain : ∀ answer, Plain (outcome answer))
    (failing : ∀ err t, PlainError err → u.Undisturbed id fs t → u.Orderly t → fail err g t)
    (seen : ∀ t answer value, u.Undisturbed id fs t → u.Orderly t → Files.Effect temporaryName id call t answer t →
      outcome answer = .ok value → ∃ g', Takes u.Stored u.objects op g t t g' ∧ u.Part id op fail post (f value) g' t) :
    u.Part id op fail post (attempt (.file call) outcome >>= f) g fs := by
  refine Careful.bind (looks.part plain ?_ ?_)
  · intro err t plain meanwhile orderly later further orderly
    exact failing err later plain (meanwhile.trans further) orderly
  · intro t answer value meanwhile orderly taken result
    obtain ⟨g', taken, rest⟩ := seen t answer value meanwhile orderly taken result
    exact ⟨g', taken, fun later further _ => rest.rely further⟩

theorem readObject_part {inode : Nat} {post : Bytes → Option (op.Res → Prop) → FileSystem → Prop} (used : inode < fs.next)
    (closed : fs.writable inode = false)
    (failing : ∀ err t, PlainError err → u.Undisturbed id fs t → u.Orderly t → fail err g t)
    (ended : ∀ t, u.Undisturbed id fs t → u.Orderly t → post (fs.data inode) g t) :
    u.Part id op fail post (LocalObjectStore.readObject (some inode)) g fs := by
  refine Looks.then trivial answered_plain failing ?_
  intro t answer size sized orderly _ _
  refine ⟨g, .inl ⟨rfl, rfl⟩, Careful.check ?_ fun _ _ => Looks.then trivial answered_plain ?_ ?_⟩
  · intro err later refused further orderly
    exact failing err later (plainError_of (.refuse fun _ => rfl) refused) (sized.trans further) orderly
  · intro err later plain further orderly
    exact failing err later plain (sized.trans further) orderly
  intro now answer data further orderly taken result
  have read : u.Undisturbed id fs now := sized.trans further
  refine ⟨g, .inl ⟨rfl, rfl⟩, Careful.check ?_ ?_⟩
  · intro err later refused further orderly
    exact failing err later (plainError_of (.refuse fun _ => rfl) refused) (read.trans further) orderly
  intro _ fits
  -- nothing was cut off
  have whole : data = fs.data inode := by
    cases answer with
    | ok answer =>
      cases result
      obtain ⟨_, ⟨⟩, rfl⟩ := taken.2
      rw [refuse_eq_ok, List.length_take] at fits
      rw [(read.closed inode used closed).2] at fits ⊢
      apply List.take_of_length_le
      omega
    | _ => cases result
  subst whole
  exact Careful.pure fun later further orderly => ended later (read.trans further) orderly

theorem get_part {post : Bytes → Option (op.Res → Prop) → FileSystem → Prop} (layout : u.Layout)
    (places : u.Places key path)
    (opens : ∀ t inode, u.Undisturbed id fs t → u.Orderly t → t.entries path = some (.file inode) →
      ∃ g', Takes u.Stored u.objects op g t t g' ∧
        (∀ err later, PlainError err → u.Undisturbed id t later → u.Orderly later → fail err g' later) ∧
        ∀ later, u.Undisturbed id t later → u.Orderly later → post (t.data inode) g' later)
    (misses : ∀ t, u.Undisturbed id fs t → u.Orderly t → t.entries path = none →
      ∃ g', Takes u.Stored u.objects op g t t g' ∧
        ∀ later, u.Undisturbed id t later → u.Orderly later → fail (.sentinel .objectNotFound) g' later)
    (failing : ∀ err t, PlainError err → u.Undisturbed id fs t → u.Orderly t → fail err g t) :
    u.Part id op fail post (u.store.get key) g fs := by
  -- what `Get` comes to: the object is there, or is not, when the file is opened
  refine Careful.check ?_ ?_
  · intro err t failed
    cases places.2.symm.trans failed
  intro there found
  cases places.2.symm.trans found
  refine Quietly.then layout (rejectLocalObjectSymlink_quiet _ _) failing fun _ _ _ checked _ => Careful.rely ?_ checked
  refine Looks.then trivial unlessMissing_plain failing ?_
  intro t answer value meanwhile orderly taken result
  cases answer with
  | notExist =>
    cases result
    have absent : t.entries path = none := by
      rcases taken.2 with link | none
      · obtain ⟨_, ⟨⟩, -⟩ := orderly.objects places link
      · exact none
    obtain ⟨g', taken, missed⟩ := misses t meanwhile orderly absent
    refine ⟨g', taken, Careful.lift ?_ (by rintro _ _ ⟨⟩)⟩
    rintro _ later ⟨⟩ further orderly
    exact missed later further orderly
  | ok handle =>
    cases result
    have file : ∃ inode, handle = some inode ∧ t.entries path = some (.file inode) := by
      rcases taken.2 with link | ⟨-, dir⟩ | file
      · obtain ⟨_, ⟨⟩, -⟩ := orderly.objects places link
      · obtain ⟨_, ⟨⟩, -⟩ := orderly.objects places dir
      · exact file
    obtain ⟨inode, rfl, there⟩ := file
    obtain ⟨_, ⟨⟩, closed, -⟩ := orderly.objects places there
    obtain ⟨g', taken, failing, ended⟩ := opens t inode meanwhile orderly there
    exact ⟨g', taken, readObject_part (orderly.used there) closed failing ended⟩
  | _ => cases result

theorem Part.carries {p : LocalM α} {ends : Except Err α → Option (op.Res → Prop) → FileSystem → Prop}
    (part : u.Part id op (fun err => ends (.error err)) (fun value => ends (.ok value)) p g fs) :
    p.run.Careful u.conduct id (Takes u.Stored u.objects op) ends g fs := by
  refine Prog.Careful.mono part.prog ?_
  intro result g t _ ended
  cases result with
  | error err => exact ended
  | ok value => exact ended

def Reads (value : α) : Except Err α → Prop
  -- the object as it was found, unless reading it fails
  | .ok found => found = value
  | .error err => PlainError err

theorem misses_of_plain {store : ObjectStore u.contentOf} {err : Err} (plain : PlainError err) :
    Misses store key err := by
  intro missing
  cases (plain _).symm.trans missing

theorem get_carries (layout : u.Layout) (places : u.Places key path) :
    Prog.Carries u.conduct u.Stored u.objects id (.get key) (u.store.get key).run none fs := by
  refine Part.carries (get_part layout places ?_ ?_ ?_)
  · intro t inode _ orderly there
    refine ⟨some (Reads (t.data inode)), .inr ⟨rfl, _, rfl, ⟨.ok _, rfl⟩, ?_⟩, fun err _ plain _ _ => plain,
      fun _ _ _ => rfl⟩
    intro answer reads
    cases answer with
    | error err => exact ⟨rfl, misses_of_plain reads⟩
    | ok data => exact ⟨rfl, _, by rw [show data = _ from reads]; exact orderly.found places there⟩
  · intro t _ _ absent
    refine ⟨some (· = .error (.sentinel .objectNotFound)), .inr ⟨rfl, _, rfl, ⟨_, rfl⟩, ?_⟩, fun _ _ _ => rfl⟩
    rintro _ rfl
    exact ⟨rfl, fun _ => places.missing absent⟩
  · intro err t plain _ _
    exact ⟨rfl, misses_of_plain plain⟩

theorem getVersioned_carries (layout : u.Layout) (places : u.Places key path) :
    Prog.Carries u.conduct u.Stored u.objects id (.getVersioned key) (u.store.getVersioned u.codec key).run none fs := by
  refine Part.carries (Careful.bind (get_part layout places ?_ ?_ ?_))
  · intro t inode _ orderly there
    refine ⟨some (Reads (t.data inode, u.revision (t.data inode))), .inr ⟨rfl, _, rfl, ⟨.ok _, rfl⟩, ?_⟩,
      fun err _ plain _ _ _ _ _ => plain, fun _ _ _ => Careful.pure fun _ _ _ => rfl⟩
    intro answer reads
    cases answer with
    | error err => exact ⟨rfl, misses_of_plain reads⟩
    | ok found =>
      cases (show found = _ from reads)
      exact ⟨rfl, orderly.found places there⟩
  · intro t _ _ absent
    refine ⟨some (· = .error (.sentinel .objectNotFound)), .inr ⟨rfl, _, rfl, ⟨_, rfl⟩, ?_⟩, fun _ _ _ _ _ _ => rfl⟩
    rintro _ rfl
    exact ⟨rfl, fun _ => places.missing absent⟩
  · intro err t plain _ _ _ _ _
    exact ⟨rfl, misses_of_plain plain⟩

theorem look_part {f : Option Kind → LocalM α} {post : α → Option (op.Res → Prop) → FileSystem → Prop} (layout : u.Layout)
    (places : u.Places key path)
    (failing : ∀ err t, PlainError err → u.Undisturbed id fs t → u.Orderly t → fail err g t)
    (missing : ∀ t, u.Orderly t → t.entries path = none →
      ∃ g', Takes u.Stored u.objects op g t t g' ∧ u.Part id op fail post (f none) g' t)
    (present : ∀ t inode, u.Orderly t → t.entries path = some (.file inode) →
      ∃ g', Takes u.Stored u.objects op g t t g' ∧
        u.Part id op fail post (f (some (.file (t.data inode).length))) g' t) :
    u.Part id op fail post (lift (pathForKey u.store.root key) >>= fun path =>
      rejectLocalObjectSymlink u.store.root path >>= fun _ => lstat path >>= f) g fs := by
  refine Careful.check ?_ ?_
  · intro err t failed
    cases places.2.symm.trans failed
  intro there found
  cases places.2.symm.trans found
  refine Quietly.then layout (rejectLocalObjectSymlink_quiet _ _) failing fun _ _ _ checked _ => Careful.rely ?_ checked
  refine Looks.then trivial unlessMissing_plain failing ?_
  intro t answer value meanwhile orderly taken result
  cases answer with
  | notExist =>
    cases result
    exact missing t orderly taken.2
  | ok kind =>
    cases result
    obtain ⟨entry, there, rfl⟩ := Option.map_eq_some_iff.mp taken.2
    obtain ⟨inode, rfl, -⟩ := orderly.objects places there
    exact present t inode orderly there
  | _ => cases result

theorem existsKey_carries (layout : u.Layout) (places : u.Places key path) :
    Prog.Carries u.conduct u.Stored u.objects id (.existsKey key) (u.store.existsKey key).run none fs := by
  refine Part.carries (look_part layout places ?_ ?_ ?_)
  · intro err t _ _ _
    exact rfl
  · intro t orderly absent
    refine ⟨some (· = .ok false), .inr ⟨rfl, _, rfl, ⟨_, rfl⟩, ?_⟩, Careful.pure fun _ _ _ => rfl⟩
    rintro _ rfl
    exact ⟨rfl, by rw [places.missing absent]; rfl⟩
  · intro t inode orderly there
    refine ⟨some (· = .ok true), .inr ⟨rfl, _, rfl, ⟨_, rfl⟩, ?_⟩, Careful.pure fun _ _ _ => rfl⟩
    rintro _ rfl
    exact ⟨rfl, by rw [orderly.found places there]; rfl⟩

theorem stat_carries (layout : u.Layout) (places : u.Places key path) :
    Prog.Carries u.conduct u.Stored u.objects id (.stat key) (u.store.stat key).run none fs := by
  refine Part.carries (look_part layout places ?_ ?_ ?_)
  · intro err t plain _ _
    exact ⟨rfl, misses_of_plain plain⟩
  · intro t orderly absent
    refine ⟨some (· = .error (.sentinel .objectNotFound)), .inr ⟨rfl, _, rfl, ⟨_, rfl⟩, ?_⟩,
      Careful.lift (by rintro _ _ ⟨⟩ _ _; rfl) (by rintro _ _ ⟨⟩)⟩
    rintro _ rfl
    exact ⟨rfl, fun _ => places.missing absent⟩
  · intro t inode orderly there
    refine ⟨some (· = .ok ((t.data inode).length : Int)), .inr ⟨rfl, _, rfl, ⟨_, rfl⟩, ?_⟩, Careful.pure fun _ _ _ => rfl⟩
    rintro _ rfl
    exact ⟨rfl, _, orderly.found places there, rfl⟩

structure Aware (u : Usage) (id : Nat) (fs fs' : FileSystem) : Prop where
  -- what a process knows while it prepares a file of its own
  issued : ∀ name, fs.issued name = some id → fs'.issued name = some id
  locks : ∀ key entry, fs.entries (u.lockPath key) = some entry → fs'.entries (u.lockPath key) = some entry
  holds : ∀ inode, fs'.holder inode = some id ↔ fs.holder inode = some id
  guarded : ∀ key path, u.swaps key → u.Places key path → u.Locked id key fs →
    (u.objects fs').objects key = (u.objects fs).objects key

theorem Aware.locked (aware : u.Aware id fs fs') (locked : u.Locked id key fs) : u.Locked id key fs' := by
  obtain ⟨lock, there, held⟩ := locked
  exact ⟨lock, aware.locks key _ there, (aware.holds lock).mpr held⟩

theorem Aware.trans (first : u.Aware id fs fs') (second : u.Aware id fs' fs'') : u.Aware id fs fs'' where
  issued name issued := second.issued name (first.issued name issued)
  locks key entry there := second.locks key entry (first.locks key entry there)
  holds inode := (second.holds inode).trans (first.holds inode)
  guarded key path swapped places locked :=
    (second.guarded key path swapped places (first.locked locked)).trans (first.guarded key path swapped places locked)

theorem Undisturbed.aware (orderly : u.Orderly fs) (later : u.Orderly fs') (meanwhile : u.Undisturbed id fs fs') :
    u.Aware id fs fs' := by
  refine ⟨meanwhile.issued, meanwhile.locks, meanwhile.holds, ?_⟩
  rintro key path swapped places ⟨lock, there, held⟩
  have same := meanwhile.guarded key path lock swapped places there held
  cases found : fs.entries path with
  | none => rw [places.missing found, places.missing (same.trans found)]
  | some entry =>
    obtain ⟨inode, rfl, closed, -⟩ := orderly.objects places found
    rw [orderly.found places found, later.found places (same.trans found),
      (meanwhile.closed inode (orderly.used found) closed).2]

def Prepares : Call → Prop
  | .createTemp _ _ | .write _ _ | .close _ | .remove _ | .openLock _ => True
  | _ => False

theorem Proper.aware {call : Call} (layout : u.Layout) (orderly : u.Orderly fs) (prepares : Prepares call)
    (proper : u.Proper id fs call) (change : Change temporaryName id fs call fs') : u.Aware id fs fs' := by
  have unseen := proper.unseen layout orderly change (by rintro _ _ rfl; exact prepares) (by rintro _ _ rfl; exact prepares)
  have guarded : ∀ key path, u.swaps key → u.Places key path → u.Locked id key fs →
      (u.objects fs').objects key = (u.objects fs).objects key := by
    intros
    rw [unseen]
  cases change with
  | none => exact ⟨fun _ issued => issued, fun _ _ there => there, fun _ => Iff.rfl, guarded⟩
  | createTemp dir lead name named fresh free =>
    have unused : ∀ key, ¬ u.Places key name := fun key places => layout.temporary places dir lead proper named
    have meanwhile := @Undisturbed.issuing u fs name id id free fresh unused
    exact ⟨meanwhile.issued, meanwhile.locks, meanwhile.holds, guarded⟩
  | write inode data part => exact ⟨fun _ issued => issued, fun _ _ there => there, fun _ => Iff.rfl, guarded⟩
  | close inode => exact ⟨fun _ issued => issued, fun _ _ there => there, fun _ => Iff.rfl, guarded⟩
  | remove path =>
    refine ⟨fun _ issued => issued, ?_, fun _ => Iff.rfl, guarded⟩
    intro key entry there
    rw [FileSystem.setEntry_of_ne (orderly.lock_not_issued layout proper), there]
  | openLock path free =>
    exact ⟨fun _ issued => issued, fun _ _ there => FileSystem.setEntry_kept free there, fun _ => Iff.rfl, guarded⟩
  | _ => exact prepares.elim

theorem Prepares.part {call : Call} {outcome : call.Res → Except Err α} (layout : u.Layout) (orderly : u.Orderly fs)
    (prepares : Prepares call) (proper : ∀ t, u.Undisturbed id fs t → u.Proper id t call)
    (failing : ∀ t answer t' later err, u.Undisturbed id fs t → Files.Effect temporaryName id call t answer t' →
      outcome answer = .error err → u.Undisturbed id t' later → u.Aware id fs later → fail err g later)
    (ended : ∀ t answer t' later value, u.Undisturbed id fs t → Files.Effect temporaryName id call t answer t' →
      outcome answer = .ok value → u.Undisturbed id t' later → u.Aware id fs later → post value g later) :
    u.Part id op fail post (attempt (.file call) outcome) g fs := by
  refine Careful.attempt ?_
  intro t meanwhile here answer t' taken
  have change : Change temporaryName id t call t' := Files.Effect.change taken
  have proper := proper t meanwhile
  obtain ⟨kept, others⟩ := proper.keeps layout here change
  have unseen := proper.unseen layout here change (by rintro _ _ rfl; exact prepares) (by rintro _ _ rfl; exact prepares)
  have aware {later : FileSystem} (further : u.Undisturbed id t' later) (last : u.Orderly later) : u.Aware id fs later :=
    ((meanwhile.aware orderly here).trans (proper.aware layout here prepares change)).trans (further.aware kept last)
  refine ⟨kept, others, g, .inl ⟨rfl, unseen⟩, ?_, ?_⟩
  · intro err later failed further last
    exact failing t answer t' later err meanwhile taken failed further (aware further last)
  · intro value later result further last
    exact ended t answer t' later value meanwhile taken result further (aware further last)

structure Owned (id : Nat) (name : String) (inode : Nat) (fs : FileSystem) : Prop where
  issued : fs.issued name = some id
  mine : fs.maker inode = id
  used : inode < fs.next

structure Filled (id : Nat) (name : String) (inode : Nat) (data : Bytes) (writable : Bool) (fs : FileSystem) : Prop
    extends Owned id name inode fs where
  there : fs.entries name = some (.file inode)
  data : fs.data inode = data
  writable : fs.writable inode = writable

theorem Owned.later {name : String} {inode : Nat} (owned : Owned id name inode fs) (meanwhile : u.Undisturbed id fs fs') :
    Owned id name inode fs' :=
  ⟨meanwhile.issued name owned.issued, (meanwhile.mine inode owned.used owned.mine).1, owned.used.trans_le meanwhile.next⟩

theorem Filled.later {name : String} {inode : Nat} {data : Bytes} {writable : Bool}
    (filled : Filled id name inode data writable fs) (meanwhile : u.Undisturbed id fs fs') :
    Filled id name inode data writable fs' := by
  obtain ⟨-, same, open'⟩ := meanwhile.mine inode filled.used filled.mine
  exact ⟨filled.toOwned.later meanwhile, meanwhile.temps name _ filled.issued filled.there, same.trans filled.data,
    open'.trans filled.writable⟩

variable {name lead dir : String} {inode : Nat} {data : Bytes}

theorem createTemp_part (layout : u.Layout) (orderly : u.Orderly fs) (among : lead ∈ temporaryLeads) :
    u.Part id op (fun _ g' t => g' = g ∧ u.Aware id fs t)
      (fun created g' t => g' = g ∧ u.Aware id fs t ∧ Filled id created.1 created.2 [] true t)
      (attempt (.file (.createTemp dir lead)) answered) g fs := by
  refine Prepares.part layout orderly trivial (fun _ _ => among) ?_ ?_
  · intro t answer t' later err _ _ _ _ aware
    exact ⟨rfl, aware⟩
  · intro t answer t' later created _ taken result further aware
    refine ⟨rfl, aware, Filled.later ?_ further⟩
    cases answer with
    | ok made =>
      obtain ⟨name, number⟩ := made
      cases result
      obtain ⟨-, -, -, rfl, rfl⟩ := taken
      exact ⟨⟨Function.update_self .., Function.update_self .., Nat.lt_succ_self _⟩, Function.update_self ..,
        Function.update_self .., Function.update_self ..⟩
    | _ => cases result

theorem write_part (layout : u.Layout) (orderly : u.Orderly fs) (filled : Filled id name inode [] true fs) :
    u.Part id op (fun _ g' t => g' = g ∧ u.Aware id fs t ∧ Owned id name inode t)
      (fun _ g' t => g' = g ∧ u.Aware id fs t ∧ Filled id name inode data true t)
      (LocalObjectStore.write inode data) g fs := by
  refine Prepares.part layout orderly trivial ?_ ?_ ?_
  · intro t meanwhile
    exact ⟨(filled.later meanwhile).mine, (filled.later meanwhile).writable⟩
  · intro t answer t' later err meanwhile taken _ further aware
    have owned := filled.toOwned.later meanwhile
    refine ⟨rfl, aware, Owned.later (?_ : Owned id name inode t') further⟩
    cases answer with
    | ok =>
      cases (show t' = _ from taken)
      exact ⟨owned.issued, owned.mine, owned.used⟩
    | failed =>
      obtain ⟨part, -, rfl⟩ := taken
      exact ⟨owned.issued, owned.mine, owned.used⟩
    | _ => exact taken.elim
  · intro t answer t' later value meanwhile taken result further aware
    have before := filled.later meanwhile
    refine ⟨rfl, aware, Filled.later ?_ further⟩
    cases answer with
    | ok =>
      cases (show t' = _ from taken)
      exact ⟨⟨before.issued, before.mine, before.used⟩, before.there,
        (Function.update_self ..).trans (by rw [before.data, List.nil_append]), before.writable⟩
    | _ => cases result

theorem close_part (layout : u.Layout) (orderly : u.Orderly fs) (owned : Owned id name inode fs) :
    u.Part id op (fun _ g' t => g' = g ∧ u.Aware id fs t ∧ Owned id name inode t)
      (fun _ g' t => g' = g ∧ u.Aware id fs t ∧ Owned id name inode t ∧
        ∀ data writable, Filled id name inode data writable fs → Filled id name inode data false t)
      (LocalObjectStore.close inode) g fs := by
  have closed {t t' later : FileSystem} {answer : Answer Unit} (meanwhile : u.Undisturbed id fs t)
      (taken : Files.Effect temporaryName id (.close inode) t answer t') (further : u.Undisturbed id t' later) :
      Owned id name inode later ∧
        ∀ data writable, Filled id name inode data writable fs → Filled id name inode data false later := by
    have same : t' = { t with writable := Function.update t.writable inode false } := by
      cases answer with
      | ok => exact taken
      | failed => exact taken
      | _ => exact taken.elim
    have before := owned.later meanwhile
    have after : Owned id name inode t' := by
      rw [same]
      exact ⟨before.issued, before.mine, before.used⟩
    refine ⟨after.later further, ?_⟩
    intro data writable filled
    have before := filled.later meanwhile
    refine Filled.later ⟨after, ?_, ?_, ?_⟩ further
    · rw [same]
      exact before.there
    · rw [same]
      exact before.data
    · rw [same]
      exact Function.update_self ..
  refine Prepares.part layout orderly trivial (fun t meanwhile => (owned.later meanwhile).mine) ?_ ?_
  · intro t answer t' later err meanwhile taken _ further aware
    exact ⟨rfl, aware, (closed meanwhile taken further).1⟩
  · intro t answer t' later value meanwhile taken _ further aware
    exact ⟨rfl, aware, closed meanwhile taken further⟩

theorem remove_part (layout : u.Layout) (orderly : u.Orderly fs) (issued : fs.issued name = some id) :
    u.Part id op (fun _ g' _ => g' = g) (fun _ g' _ => g' = g) (LocalObjectStore.remove name) g fs :=
  Prepares.part layout orderly trivial (fun _ meanwhile => meanwhile.issued name issued) (fun _ _ _ _ _ _ _ _ _ _ => rfl)
    fun _ _ _ _ _ _ _ _ _ _ => rfl

theorem ignoring_part {p : LocalM Unit} {post : Unit → Option (op.Res → Prop) → FileSystem → Prop}
    (part : u.Part id op (fun _ g t => ∀ later, u.Undisturbed id t later → u.Orderly later → post () g later)
      (fun _ g t => ∀ later, u.Undisturbed id t later → u.Orderly later → post () g later) p g fs) :
    u.Part id op fail post (ignoring p) g fs :=
  Careful.recover (Careful.mono part (fun _ _ _ _ ended => Careful.pure ended) fun _ _ _ _ ended => ended)

theorem deferring_part {p : LocalM α} {last : LocalM Unit} (ready : FileSystem → Prop)
    (fails : Err → Option (op.Res → Prop) → Prop) (ends : α → Option (op.Res → Prop) → Prop)
    (part : u.Part id op (fun err g t => ready t ∧ fails err g) (fun value g t => ready t ∧ ends value g) p g fs)
    (quiet : ∀ g t, u.Orderly t → ready t → u.Part id op (fun _ g' _ => g' = g) (fun _ g' _ => g' = g) last g t) :
    u.Part id op (fun err g _ => fails err g) (fun value g _ => ends value g) (deferring p last) g fs := by
  refine Careful.deferring (Careful.mono part ?_ ?_)
  · rintro err g t orderly ⟨ready, fails⟩
    refine Careful.mono (quiet g t orderly ready) ?_ ?_
    · rintro _ _ _ _ rfl _ _ _
      exact fails
    · rintro _ _ _ _ rfl _ _ _
      exact fails
  · rintro value g t orderly ⟨ready, ends⟩
    refine Careful.mono (quiet g t orderly ready) ?_ ?_
    · rintro _ _ _ _ rfl _ _ _
      exact ends
    · rintro _ _ _ _ rfl _ _ _
      exact ends

abbrev Over (u : Usage) (op : Op) (answer : op.Res) (g : Option (op.Res → Prop)) : Prop :=
  -- a call that is over may answer this
  ∀ t, Ends u.Stored u.objects op answer g t

theorem uploading_part (layout : u.Layout) (orderly : u.Orderly fs) (uploaded : u.uploads key)
    (places : u.Places key path) (known : u.Known data) (filled : Filled id name inode [] true fs) :
    u.Part id (.putIfAbsent key data)
      (fun err g t => Owned id name inode t ∧ u.Over (.putIfAbsent key data) (.error err) g)
      (fun _ g t => Owned id name inode t ∧ u.Over (.putIfAbsent key data) (.ok ()) g) (do
        LocalObjectStore.write inode data
        LocalObjectStore.chmod inode
        LocalObjectStore.sync inode
        LocalObjectStore.close inode
        attempt (.file (.link name path)) LocalObjectStore.linkUnlessThere
        syncDirectory (filepathDir path)) none fs := by
  refine Careful.bind (Careful.mono (write_part layout orderly filled) ?_ ?_)
  · rintro err _ t _ ⟨rfl, -, owned⟩ later further _
    exact ⟨owned.later further, fun _ => .inl rfl⟩
  rintro _ _ t orderly ⟨rfl, -, filled⟩
  have failing {t later : FileSystem} {err : Err} (filled : Filled id name inode data true t)
      (meanwhile : u.Undisturbed id t later) :
      Owned id name inode later ∧ u.Over (.putIfAbsent key data) (.error err) none :=
    ⟨filled.toOwned.later meanwhile, fun _ => .inl rfl⟩
  refine Quietly.then layout (Ok.attempt trivial (fun _ _ failed => plainError_of (answered_plain _) failed)
    fun _ _ _ => trivial) (fun _ _ _ meanwhile _ => failing filled meanwhile) ?_
  intro _ t _ meanwhile orderly
  have filled := filled.later meanwhile
  refine Quietly.then layout (Ok.attempt trivial (fun _ _ failed => plainError_of (answered_plain _) failed)
    fun _ _ _ => trivial) (fun _ _ _ meanwhile _ => failing filled meanwhile) ?_
  intro _ t _ meanwhile orderly
  have filled := filled.later meanwhile
  refine Careful.bind (Careful.mono (close_part layout orderly filled.toOwned) ?_ ?_)
  · rintro err _ t _ ⟨rfl, -, owned⟩ later further _
    exact ⟨owned.later further, fun _ => .inl rfl⟩
  rintro _ _ t orderly ⟨rfl, -, -, finished⟩
  have filled := finished data true filled
  refine Careful.bind (Careful.attempt ?_)
  intro t meanwhile orderly answer t' taken
  have filled := filled.later meanwhile
  have proper : u.Proper id t (.link name path) := by
    refine ⟨key, uploaded, places, ?_⟩
    intro other there
    cases filled.there.symm.trans there
    exact ⟨filled.writable, filled.data ▸ known⟩
  obtain ⟨kept, others⟩ := proper.keeps layout orderly (Files.Effect.change taken)
  have unlinked (same : t' = t) : Takes u.Stored u.objects (.putIfAbsent key data) none t t' none := .inl ⟨rfl, by rw [same]⟩
  cases answer with
  | ok =>
    obtain ⟨other, there, free, rfl⟩ := taken
    cases filled.there.symm.trans there
    have written := places.writes (filled.data ▸ known)
    rw [filled.data] at written
    have uploads : Uploads (fun data stored => stored = data) (u.objects t) key data (u.objects _) :=
      ⟨places.missing free, _, rfl, written⟩
    have owned : Owned id name inode (t.setEntry path (some (.file inode))) := ⟨filled.issued, filled.mine, filled.used⟩
    -- the directory may still fail to be synced
    refine ⟨kept, others, some fun _ => True, .inr ⟨rfl, _, rfl, ⟨.ok (), trivial⟩, ?_⟩, by rintro _ _ ⟨⟩, ?_⟩
    · intro answer _
      cases answer with
      | error err => exact .inr uploads
      | ok => exact uploads
    · intro _ later _ further _
      refine Careful.mono (Quietly.part layout (syncDirectory_quiet _)) ?_ ?_
      · rintro _ _ last _ ⟨rfl, beyond, -⟩
        exact ⟨(owned.later further).later beyond, fun _ => trivial⟩
      · rintro _ _ last _ ⟨rfl, beyond, -⟩
        exact ⟨(owned.later further).later beyond, fun _ => trivial⟩
  | exist | notExist =>
    refine ⟨kept, others, none, unlinked taken.1, ?_, by rintro _ _ ⟨⟩⟩
    rintro err later - further _ last beyond _
    rw [taken.1] at further
    exact ⟨(filled.toOwned.later further).later beyond, fun _ => .inl rfl⟩
  | failed =>
    refine ⟨kept, others, none, unlinked taken, ?_, by rintro _ _ ⟨⟩⟩
    rintro err later - further _ last beyond _
    rw [show t' = t from taken] at further
    exact ⟨(filled.toOwned.later further).later beyond, fun _ => .inl rfl⟩
  | wouldBlock => exact taken.elim

theorem putIfAbsent_carries (layout : u.Layout) (uploaded : u.uploads key) (places : u.Places key path)
    (known : u.Known data) :
    Prog.Carries u.conduct u.Stored u.objects id (.putIfAbsent key data) (u.store.putIfAbsent key data).run none fs := by
  refine Part.carries (Careful.check ?_ ?_)
  · intro err t failed
    cases places.2.symm.trans failed
  intro there found
  cases places.2.symm.trans found
  refine Quietly.then layout (prepare_quiet places) (fun _ _ _ _ _ => .inl rfl) ?_
  intro _ t _ _ orderly
  refine Careful.bind (Careful.mono (createTemp_part layout orderly (by simp [temporaryLeads])) ?_ ?_)
  · rintro err _ t _ ⟨rfl, -⟩ later _ _
    exact .inl rfl
  rintro ⟨name, inode⟩ _ t orderly ⟨rfl, -, filled⟩
  refine Careful.mono (deferring_part (Owned id name inode) _ _
    (uploading_part layout orderly uploaded places known filled) ?_) ?_ ?_
  · intro g t orderly owned
    refine Careful.bind (ignoring_part (Careful.mono (close_part layout orderly owned) ?_ ?_))
    · rintro _ _ t _ ⟨rfl, -, owned⟩ later further orderly
      exact ignoring_part (Careful.mono (remove_part layout orderly (owned.later further).issued)
        (fun _ _ _ _ same _ _ _ => same) fun _ _ _ _ same _ _ _ => same)
    · rintro _ _ t _ ⟨rfl, -, owned, -⟩ later further orderly
      exact ignoring_part (Careful.mono (remove_part layout orderly (owned.later further).issued)
        (fun _ _ _ _ same _ _ _ => same) fun _ _ _ _ same _ _ _ => same)
  · intro err g t _ ended
    exact ended t
  · intro _ g t _ ended
    exact ended t

variable {revision : String}

/-- The process has the lock, and the object is still the one it wants to replace. -/
structure Poised (u : Usage) (id : Nat) (key revision : String) (fs : FileSystem) : Prop where
  locked : u.Locked id key fs
  current : (u.objects fs).revision key = revision

theorem Poised.later (poised : u.Poised id key revision fs) (swapped : u.swaps key) (places : u.Places key path)
    (aware : u.Aware id fs fs') : u.Poised id key revision fs' := by
  refine ⟨aware.locked poised.locked, ?_⟩
  rw [ObjectStore.revision, aware.guarded key path swapped places poised.locked]
  exact poised.current

theorem closing_part {p : LocalM Unit} {post : Unit → Option (op.Res → Prop) → FileSystem → Prop} (layout : u.Layout)
    (part : u.Part id op (fun _ g' t => g' = g ∧ Owned id name inode t)
      (fun value g t => ∀ later, u.Undisturbed id t later → u.Orderly later → post value g later) p g fs)
    (failing : ∀ err t, Owned id name inode t → fail err g t) :
    u.Part id op fail post (LocalObjectStore.closing inode p) g fs := by
  refine Careful.recover (Careful.mono part ?_ fun _ _ _ _ ended => ended)
  rintro err _ t orderly ⟨rfl, owned⟩
  refine Careful.bind (ignoring_part (Careful.mono (close_part layout orderly owned) ?_ ?_))
  · rintro _ _ t _ ⟨rfl, -, owned⟩ later further _
    refine Careful.lift ?_ (by rintro _ _ ⟨⟩)
    rintro _ last ⟨⟩ beyond _
    exact failing err last ((owned.later further).later beyond)
  · rintro _ _ t _ ⟨rfl, -, owned, -⟩ later further _
    refine Careful.lift ?_ (by rintro _ _ ⟨⟩)
    rintro _ last ⟨⟩ beyond _
    exact failing err last ((owned.later further).later beyond)

theorem filling_part {rest : LocalM Unit} {post : Unit → Option (op.Res → Prop) → FileSystem → Prop} (layout : u.Layout)
    (orderly : u.Orderly fs) (filled : Filled id name inode [] true fs)
    (failing : ∀ err t, Owned id name inode t → fail err g t)
    (finished : ∀ t, u.Orderly t → u.Aware id fs t → Filled id name inode data false t →
      u.Part id op fail post rest g t) :
    u.Part id op fail post (do
      LocalObjectStore.closing inode (LocalObjectStore.write inode data)
      LocalObjectStore.closing inode (LocalObjectStore.sync inode)
      LocalObjectStore.close inode
      rest) g fs := by
  have failing' : ∀ err t, Owned id name inode t → ∀ later, u.Undisturbed id t later → u.Orderly later → fail err g later :=
    fun err t owned later further _ => failing err later (owned.later further)
  refine Careful.bind (closing_part layout (Careful.mono (write_part layout orderly filled) ?_ ?_) failing')
  · rintro err _ t _ ⟨rfl, -, owned⟩
    exact ⟨rfl, owned⟩
  rintro _ _ t orderly ⟨rfl, written, filled⟩ later further here
  have filled := filled.later further
  have written := written.trans (further.aware orderly here)
  refine Careful.bind (closing_part layout (Careful.mono (Quietly.part layout (Ok.attempt trivial
    (fun _ _ failed => plainError_of (answered_plain _) failed) fun _ _ _ => trivial)) ?_ ?_) failing')
  · rintro err _ t _ ⟨rfl, meanwhile, -⟩
    exact ⟨rfl, filled.toOwned.later meanwhile⟩
  rintro _ _ t orderly ⟨rfl, meanwhile, -⟩ later further there
  have filled := (filled.later meanwhile).later further
  have synced := (written.trans (meanwhile.aware here orderly)).trans (further.aware orderly there)
  refine Careful.bind (Careful.mono (close_part layout there filled.toOwned) ?_ ?_)
  · rintro err _ t _ ⟨rfl, -, owned⟩ later further _
    exact failing err later (owned.later further)
  rintro _ _ t orderly ⟨rfl, closed, -, finishing⟩
  exact finished t orderly (synced.trans closed) (finishing data true filled)

theorem Filled.renames (filled : Filled id name inode data false fs) (layout : u.Layout) (orderly : u.Orderly fs)
    (places : u.Places key path) (known : u.Known data) :
    (u.objects fs).Writes key ⟨data, u.revision data⟩
      (u.objects ((fs.setEntry path (some (.file inode))).setEntry name none)) := by
  have written := places.writes (filled.data ▸ known)
  rw [filled.data] at written
  have swapped := orderly.swapping path filled.used filled.writable (filled.data ▸ known)
  have same : u.objects ((fs.setEntry path (some (.file inode))).setEntry name none) =
      u.objects (fs.setEntry path (some (.file inode))) := by
    refine swapped.same_objects ?_ fun _ _ _ => rfl
    intro other there also
    exact FileSystem.setEntry_of_ne (orderly.not_issued layout also filled.issued)
  rwa [same]

/-- A swap that was made may still be reported as failed. -/
def Swapped (revision : String) : Except Err String → Prop
  | .ok found => found = revision
  | .error _ => True

theorem put_part (layout : u.Layout) (orderly : u.Orderly fs) (swapped : u.swaps key) (places : u.Places key path)
    (known : u.Known data) (poised : u.Poised id key revision fs) :
    u.Part id (.compareAndSwap key data revision)
      (fun err g _ => u.Over (.compareAndSwap key data revision) (.error err) g)
      (fun _ g _ => u.Over (.compareAndSwap key data revision) (.ok (u.revision data)) g) (u.store.put key data) none fs := by
  refine Careful.check ?_ ?_
  · intro err t failed
    cases places.2.symm.trans failed
  intro there found
  cases places.2.symm.trans found
  refine Quietly.then layout (prepare_quiet places) (fun _ _ _ _ _ _ => .inl rfl) ?_
  intro _ t _ meanwhile here
  have poised := poised.later swapped places (meanwhile.aware orderly here)
  refine Careful.bind (Careful.mono (createTemp_part layout here (by simp [temporaryLeads])) ?_ ?_)
  · rintro err _ t _ ⟨rfl, -⟩ later _ _ _
    exact .inl rfl
  rintro ⟨name, inode⟩ _ t orderly ⟨rfl, aware, filled⟩
  have poised := poised.later swapped places aware
  refine deferring_part (fun t => t.issued name = some id) _ _ (filling_part layout orderly filled ?_ ?_)
    fun g t orderly issued => remove_part layout orderly issued
  · intro err t owned
    exact ⟨owned.issued, fun _ => .inl rfl⟩
  intro t orderly aware filled
  have poised := poised.later swapped places aware
  refine Careful.bind (Careful.attempt ?_)
  intro now meanwhile here answer after taken
  have filled := filled.later meanwhile
  have poised := poised.later swapped places (meanwhile.aware orderly here)
  have finished : ∀ other, now.entries name = some (.file other) → now.writable other = false ∧ u.Known (now.data other) := by
    intro other there
    cases filled.there.symm.trans there
    exact ⟨filled.writable, filled.data ▸ known⟩
  have proper : u.Proper id now (.rename name path) :=
    ⟨filled.issued, ⟨key, swapped, places, poised.locked⟩, finished⟩
  obtain ⟨kept, others⟩ := proper.keeps layout here (Files.Effect.change taken)
  cases answer with
  | ok =>
    obtain ⟨other, there, -, rfl⟩ := taken
    cases filled.there.symm.trans there
    have written : Swaps (u.objects now) key data revision (u.revision data) (u.objects _) :=
      ⟨poised.current, (filled.renames layout here places known)⟩
    refine ⟨kept, others, some (Swapped (u.revision data)), .inr ⟨rfl, _, rfl, ⟨.ok _, rfl⟩, ?_⟩, by rintro _ _ ⟨⟩, ?_⟩
    · intro answer swapped
      cases answer with
      | error err => exact .inr ⟨_, written⟩
      | ok found =>
        cases (show found = _ from swapped)
        exact written
    · intro _ later _ further _
      have issued := further.issued name filled.issued
      refine Careful.mono (Quietly.part layout (syncDirectory_quiet _)) ?_ ?_
      · rintro _ _ last _ ⟨rfl, beyond, -⟩
        exact ⟨beyond.issued name issued, fun _ => trivial⟩
      · rintro _ _ last _ ⟨rfl, beyond, -⟩
        exact ⟨beyond.issued name issued, fun _ => rfl⟩
  | notExist => cases filled.there.symm.trans taken.2
  | failed =>
    cases (show after = now from taken)
    refine ⟨kept, others, none, .inl ⟨rfl, rfl⟩, ?_, by rintro _ _ ⟨⟩⟩
    intro err later _ further _ last beyond _
    exact ⟨beyond.issued name (further.issued name filled.issued), fun _ => .inl rfl⟩
  | exist => exact taken.elim
  | wouldBlock => exact taken.elim

theorem ctxErr_then {f : Unit → LocalM α} (failing : ∀ err t, fail err g t)
    (rest : u.Part id op fail post (f ()) g fs) :
    u.Part id op fail post (attempt (.other .ctxErr) (fun answer => answer) >>= f) g fs := by
  refine Careful.bind (Careful.attempt ?_)
  intro t meanwhile orderly answer t' taken
  cases (show t' = t from taken)
  refine ⟨orderly, fun other _ => .refl other t, g, .inl ⟨rfl, rfl⟩, ?_, ?_⟩
  · intro err later _ _ _ last _ _
    exact failing err last
  · intro _ later _ further _
    exact (rest.rely meanwhile).rely further

theorem acquire_part {lock : Nat} (layout : u.Layout) (fuel : Nat) (there : fs.entries (u.lockPath key) = some (.file lock)) :
    u.Part id op (fun _ g' _ => g' = g) (fun _ g' t => g' = g ∧ u.Locked id key t)
      (LocalObjectStore.acquire lock fuel) g fs := by
  induction fuel generalizing fs with
  | zero => exact Careful.lift (fun _ _ _ _ _ => rfl) (by rintro _ _ ⟨⟩)
  | succ fuel ih =>
    refine ctxErr_then (fun _ _ => rfl) (Careful.bind (Careful.attempt ?_))
    intro t meanwhile orderly answer t' taken
    have proper : u.Proper id t (.flock lock) := trivial
    have change : Change temporaryName id t (.flock lock) t' := Files.Effect.change taken
    obtain ⟨kept, others⟩ := proper.keeps layout orderly change
    refine ⟨kept, others, g, .inl ⟨rfl, proper.unseen layout orderly change (by rintro _ _ ⟨⟩) (by rintro _ _ ⟨⟩)⟩,
      fun _ _ _ _ _ _ _ _ => rfl, ?_⟩
    intro taken' later result further _
    have there := meanwhile.locks key _ there
    cases answer with
    | ok =>
      cases result
      obtain ⟨-, rfl⟩ := taken
      refine Careful.pure ?_
      intro last beyond _
      have held := (beyond.holds lock).mpr ((further.holds lock).mpr (Function.update_self ..))
      exact ⟨rfl, lock, beyond.locks key _ (further.locks key _ there), held⟩
    | wouldBlock =>
      cases result
      cases (show t' = t from taken)
      exact ctxErr_then (fun _ _ => rfl) (ih (further.locks key _ there))
    | _ => cases result

theorem closeLock_part {lock : Nat} (layout : u.Layout) :
    u.Part id op (fun _ g' _ => g' = g) (fun _ g' _ => g' = g) (attempt (.file (.closeLock lock)) answered) g fs := by
  refine Careful.attempt ?_
  intro t _ orderly answer t' taken
  have proper : u.Proper id t (.closeLock lock) := trivial
  have change : Change temporaryName id t (.closeLock lock) t' := Files.Effect.change taken
  obtain ⟨kept, others⟩ := proper.keeps layout orderly change
  exact ⟨kept, others, g, .inl ⟨rfl, proper.unseen layout orderly change (by rintro _ _ ⟨⟩) (by rintro _ _ ⟨⟩)⟩,
    fun _ _ _ _ _ => rfl, fun _ _ _ _ _ => rfl⟩

theorem currentRevision_part (layout : u.Layout) (orderly : u.Orderly fs) (swapped : u.swaps key)
    (places : u.Places key path) (locked : u.Locked id key fs) :
    u.Part id op (fun _ g' _ => g' = g) (fun current g' t => g' = g ∧ u.Poised id key current t)
      (u.store.currentRevision u.codec key) g fs := by
  -- under the lock the revision that was read stays the current one
  have poised {t later : FileSystem} {current : String} (meanwhile : u.Undisturbed id fs t) (here : u.Orderly t)
      (now : (u.objects t).revision key = current) (further : u.Undisturbed id t later) (last : u.Orderly later) :
      u.Poised id key current later :=
    Poised.later ⟨(meanwhile.aware orderly here).locked locked, now⟩ swapped places (further.aware here last)
  refine Careful.recover (Careful.bind (Careful.bind (get_part layout places ?_ ?_ ?_)))
  · intro t inode meanwhile here there
    refine ⟨g, .inl ⟨rfl, rfl⟩, ?_, ?_⟩
    · intro err later plain _ _ last _ _ _ _ _
      rw [if_neg (by simp [plain .objectNotFound])]
      exact Careful.lift (fun _ _ _ _ _ => rfl) (by rintro _ _ ⟨⟩)
    · intro later further _
      refine Careful.pure fun last beyond _ => Careful.pure fun end' final _ after rest orderly => ⟨rfl, ?_⟩
      refine poised meanwhile here ?_ (((further.trans beyond).trans final).trans rest) orderly
      rw [ObjectStore.revision, here.found places there]
      rfl
  · intro t meanwhile here absent
    refine ⟨g, .inl ⟨rfl, rfl⟩, ?_⟩
    intro later further _ last beyond _ final rest orderly
    rw [if_pos (by decide)]
    refine Careful.pure fun end' more orderly => ⟨rfl, ?_⟩
    refine poised meanwhile here ?_ (((further.trans beyond).trans rest).trans more) orderly
    rw [ObjectStore.revision_eq_empty]
    exact places.missing absent
  · intro err t plain _ _ _ _ _ _ _ _
    rw [if_neg (by simp [plain .objectNotFound])]
    exact Careful.lift (fun _ _ _ _ _ => rfl) (by rintro _ _ ⟨⟩)

theorem compareAndSwap_carries (layout : u.Layout) (swapped : u.swaps key)
    (places : u.Places key path) (known : u.Known data) (fuel : Nat) :
    Prog.Carries u.conduct u.Stored u.objects id (.compareAndSwap key data revision)
      (u.store.compareAndSwap u.codec fuel key data revision).run none fs := by
  refine Part.carries (Careful.check (fun _ _ _ _ _ => .inl rfl) fun _ _ => ?_)
  refine Quietly.then layout (rejectLocalObjectSymlink_quiet _ _) (fun _ _ _ _ _ => .inl rfl) ?_
  intro _ t _ _ _
  refine Quietly.then layout (makeDirectoriesDurable_quiet fun n => .inr ⟨n, rfl⟩) (fun _ _ _ _ _ => .inl rfl) ?_
  intro _ t _ _ orderly
  refine Careful.bind (Prepares.part layout orderly trivial (fun _ _ => ⟨key, rfl⟩) ?_ ?_)
  · intro _ _ _ _ _ _ _ _ _ _ later _ _
    exact .inl rfl
  intro now answer after later lock _ taken result further _
  have there : later.entries (u.lockPath key) = some (.file lock) := by
    cases answer with
    | ok inode =>
      cases result
      rcases taken with ⟨there, rfl⟩ | ⟨-, rfl, rfl⟩
      · exact further.locks key _ there
      · exact further.locks key _ FileSystem.setEntry_self
    | _ => cases result
  refine Careful.mono (deferring_part (fun _ => True) (fun err => u.Over (.compareAndSwap key data revision) (.error err))
    (fun found => u.Over (.compareAndSwap key data revision) (.ok found)) ?_ fun g t _ _ => closeLock_part layout) ?_ ?_
  · refine Careful.bind (Careful.mono (acquire_part layout fuel there) ?_ ?_)
    · rintro _ _ t _ rfl _ _ _
      exact ⟨trivial, fun _ => .inl rfl⟩
    rintro _ _ t orderly ⟨rfl, locked⟩
    refine Careful.bind (Careful.mono (currentRevision_part layout orderly swapped places locked) ?_ ?_)
    · rintro _ _ t _ rfl _ _ _
      exact ⟨trivial, fun _ => .inl rfl⟩
    rintro current _ t orderly ⟨rfl, poised⟩
    refine Careful.check (fun _ _ _ _ _ => ⟨trivial, fun _ => .inl rfl⟩) fun _ same => ?_
    rw [refuse_eq_ok, not_not] at same
    cases same
    refine Careful.bind (Careful.mono (put_part layout orderly swapped places known poised) ?_ ?_)
    · intro err g t _ ended _ _ _
      exact ⟨trivial, ended⟩
    · intro _ g t _ ended
      exact Careful.pure fun _ _ _ => ⟨trivial, ended⟩
  · intro err g t _ ended
    exact ended t
  · intro _ g t _ ended
    exact ended t

end Usage

end CometArchive.Archive
