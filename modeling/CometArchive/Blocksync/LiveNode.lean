import CometArchive.Archive.Fleet
import CometArchive.Archive.PruneBounds
import CometArchive.Blocksync.Checkpoint
import CometArchive.Shared.Solo

set_option autoImplicit false

namespace CometArchive.Ingest

open GoBytes GoError HotIngestor Linked Runs Programs Archive

structure LiveNode (V X : Type) where
  process : Process V
  events : List (Event V)
  objects : X

variable {V X : Type} (comet : Comet V)

def LiveNode.after (node : LiveNode V X) (event : Event V) : LiveNode V X :=
  { node with process := node.process.step comet event, events := node.events ++ [event] }

/-- What a call of maintenance may answer; `remote` says it for the object store and the rest. -/
def HotEffect (remote : (op : Op) → X → op.Res → X → Prop) :
    (op : Op) → LiveNode V X → op.Res → LiveNode V X → Prop
  | .base, node, answer, node' => node' = node ∧ ∃ i, node.process = .running i ∧ answer = i.store.base
  | .height, node, answer, node' => node' = node ∧ ∃ i, node.process = .running i ∧ answer = i.store.height
  | .loadBlock h, node, answer, node' => node' = node ∧ ∃ i, node.process = .running i ∧ answer = i.store.load h
  | .archiveHeightLimit, node, answer, node' =>
    node' = node ∧ ∃ i, node.process = .running i ∧ answer = i.archiveHeightLimit
  | .pruneHotStore m opts, node, answer, node' => ∃ i ctx fault, node.process = .running i ∧
    match pruneHotStore comet i.store m opts ctx fault with
    | .error err => answer = .error err ∧ node' = node
    | .ok (hot, result) => answer = .ok result ∧ (hot = i.store ∧ node' = node ∨
        ∃ target, i.store.pruneBlocks target = .ok hot ∧ node' = node.after comet (.prune target))
  | op, node, answer, node' => ∃ objects, remote op node.objects answer objects ∧ node' = { node with objects }

def LiveMove (node : LiveNode V X) (event : Event V) (node' : LiveNode V X) : Prop :=
  -- blocks come in, and the hot store is pruned
  (∀ opts, event ≠ .start opts) ∧ node' = node.after comet event

def LiveRestart (node : LiveNode V X) (event : Event V) (node' : LiveNode V X) : Prop :=
  (∃ opts, event = .start opts) ∧ node' = node.after comet event

def LiveNode.Genuine (initial : BlockStore) (node : LiveNode V X) : Prop :=
  Run (Process.Step comet) (.stopped initial) node.events node.process

variable {comet} {remote : (op : Op) → X → op.Res → X → Prop} {initial : BlockStore} {node node' : LiveNode V X}

theorem LiveNode.Genuine.after (genuine : node.Genuine comet initial) (event : Event V) :
    (node.after comet event).Genuine comet initial := .snoc genuine rfl

theorem HotEffect.moves {op : Op} {answer : op.Res} (taken : HotEffect comet remote op node answer node') :
    node'.process = node.process ∧ node'.events = node.events ∨
      ∃ target objects, node' = { node.after comet (.prune target) with objects } := by
  -- a call leaves the ingestor alone, or prunes its store
  cases op with
  | base | height | loadBlock | archiveHeightLimit =>
    obtain ⟨rfl, -⟩ := taken
    exact .inl ⟨rfl, rfl⟩
  | pruneHotStore m opts =>
    obtain ⟨i, ctx, fault, -, ended⟩ := taken
    split at ended
    next =>
      obtain ⟨-, rfl⟩ := ended
      exact .inl ⟨rfl, rfl⟩
    next =>
      obtain ⟨-, ⟨-, rfl⟩ | ⟨target, -, rfl⟩⟩ := ended
      · exact .inl ⟨rfl, rfl⟩
      · exact .inr ⟨target, node.objects, rfl⟩
  | _ =>
    obtain ⟨objects, -, rfl⟩ := taken
    exact .inl ⟨rfl, rfl⟩

theorem HotEffect.genuine {op : Op} {answer : op.Res} (taken : HotEffect comet remote op node answer node')
    (genuine : node.Genuine comet initial) : node'.Genuine comet initial := by
  rcases taken.moves with ⟨process, events⟩ | ⟨target, objects, rfl⟩
  · unfold LiveNode.Genuine
    rw [process, events]
    exact genuine
  · exact genuine.after (.prune target)

variable (comet) (initial)

/-- What an answer of the reader says for as long as the ingestor lives. -/
def HotFact (node : LiveNode V X) : Entry Op Op.Res → Prop
  | ⟨.loadBlock h, some block⟩ => everStored comet initial node.events h = some block
  | ⟨.archiveHeightLimit, limit⟩ => ∀ i, node.process = .running i → i.opts.validation = .checkpoint → 0 < limit →
    ∃ root, Approved comet initial node.events i limit root
  | _ => True

variable {comet} {initial}

theorem HotFact.congr {entry : Entry Op Op.Res} (fact : HotFact comet initial node entry)
    (process : node'.process = node.process) (events : node'.events = node.events) : HotFact comet initial node' entry := by
  unfold HotFact at fact ⊢
  rw [process, events]
  exact fact

theorem HotFact.after {entry : Entry Op Op.Res} {event : Event V} (genuine : node.Genuine comet initial)
    (fact : HotFact comet initial node entry) (going : ∀ opts, event ≠ .start opts) :
    HotFact comet initial (node.after comet event) entry := by
  obtain ⟨op, answer⟩ := entry
  cases op with
  | loadBlock h =>
    cases answer with
    | none => trivial
    | some block => exact everStored_mono fact
  | archiveHeightLimit =>
    intro i running mode positive
    change node.process.step comet event = .running i at running
    cases event with
    | start opts => exact absurd rfl (going opts)
    | submit ask given =>
      cases before : node.process with
      | stopped store =>
        rw [before] at running
        cases running
      | running old =>
        have run : Run (Process.Step comet) (.stopped initial) node.events (.running old) := before ▸ genuine
        have alive := (submit_extending ((run_names run).extending old rfl) ask given).2
        rw [before, step_submit alive] at running
        cases running
        rw [submit_opts] at mode
        obtain ⟨root, approved⟩ := fact old before mode positive
        exact ⟨root, approved.submit run⟩
    | prune target =>
      cases before : node.process with
      | stopped store =>
        rw [before] at running
        simp only [Process.step] at running
        split at running <;> cases running
      | running old =>
        rw [before] at running
        simp only [Process.step] at running
        split at running
        all_goals
          cases running
          obtain ⟨root, approved⟩ := fact _ before mode positive
          exact ⟨root, approved.of_pending rfl rfl⟩
  | _ => trivial

theorem HotFact.learned {op : Op} {answer : op.Res} (genuine : node.Genuine comet initial)
    (taken : HotEffect comet remote op node answer node') : HotFact comet initial node' ⟨op, answer⟩ := by
  cases op with
  | loadBlock h =>
    obtain ⟨rfl, i, running, rfl⟩ := taken
    cases found : i.store.load h with
    | none => trivial
    | some block =>
      have recorded := run_recorded genuine
      rw [running] at recorded
      exact recorded.stored h block found
  | archiveHeightLimit =>
    obtain ⟨rfl, i, running, rfl⟩ := taken
    intro other again mode positive
    cases running.symm.trans again
    rw [HotIngestor.archiveHeightLimit, if_pos mode] at positive ⊢
    exact run_approved genuine i running positive
  | _ => trivial

theorem HotFact.call {op : Op} {answer : op.Res} {trace : History} (genuine : node.Genuine comet initial)
    (facts : ∀ entry ∈ trace, HotFact comet initial node entry) (taken : HotEffect comet remote op node answer node') :
    ∀ entry ∈ trace ++ [⟨op, answer⟩], HotFact comet initial node' entry := by
  intro entry member
  rcases List.mem_append.mp member with old | new
  · rcases taken.moves with ⟨process, events⟩ | ⟨target, objects, rfl⟩
    · exact (facts entry old).congr process events
    · have stays : HotFact comet initial (node.after comet (.prune target)) entry := (facts entry old).after genuine (by rintro _ ⟨⟩)
      exact stays.congr rfl rfl
  · cases List.mem_singleton.mp new
    exact HotFact.learned genuine taken

section Sample

def serveHot (comet : Comet V) (codec : Codec) (op : Op) (node : LiveNode V (ObjectStore spelledContent)) :
    Option (op.Res × LiveNode V (ObjectStore spelledContent)) :=
  match node.process with
  | .stopped _ => none
  | .running i =>
    match op with
    | .base => some (i.store.base, node)
    | .height => some (i.store.height, node)
    | .loadBlock h => some (i.store.load h, node)
    | .archiveHeightLimit => some (i.archiveHeightLimit, node)
    | .pruneHotStore m opts =>
      match pruneHotStore comet i.store m opts (.ok ()) none with
      | .error err => some (.error err, node)
      | .ok (_, result) =>
        if i.store.base < pruneTo i.store m opts then
          some (.ok result, node.after comet (.prune (pruneTo i.store m opts)))
        else some (.ok result, node)
    | op =>
      let served := serve codec sampleSource op node.objects
      some (served.1, { node with objects := served.2 })

theorem serveHot_effect {codec : Codec} (op : Op) (node : LiveNode V (ObjectStore spelledContent)) (given : op.Res)
    (after : LiveNode V (ObjectStore spelledContent)) (served : serveHot comet codec op node = some (given, after)) :
    HotEffect comet (Effect codec fun data stored => stored = data) op node given after := by
  have remote (op : Op) (s : ObjectStore spelledContent) : Effect codec (fun data stored => stored = data) op s
      (serve codec sampleSource op s).1 (serve codec sampleSource op s).2 := by
    apply serve_effect
    exact fun _ => rfl
  unfold serveHot at served
  cases process : node.process with
  | stopped store =>
    rw [process] at served
    cases served
  | running i =>
    rw [process] at served
    cases op with
    | base | height | loadBlock | archiveHeightLimit =>
      cases served
      exact ⟨rfl, i, process, rfl⟩
    | pruneHotStore m opts =>
      dsimp only at served
      refine ⟨i, .ok (), none, process, ?_⟩
      cases pruned : pruneHotStore comet i.store m opts (.ok ()) none with
      | error err =>
        rw [pruned] at served
        cases served
        exact ⟨rfl, rfl⟩
      | ok returned =>
        obtain ⟨hot, result⟩ := returned
        have deletes := pruneHotStore_deletes pruned
        rw [pruned] at served
        dsimp only at served ⊢
        split at served
        next more =>
          rw [if_pos more] at deletes
          cases served
          exact ⟨rfl, .inr ⟨_, deletes.1, rfl⟩⟩
        next none =>
          rw [if_neg none] at deletes
          cases served
          exact ⟨rfl, .inl ⟨deletes.1, rfl⟩⟩
    | _ =>
      cases served
      exact ⟨_, remote _ _, by rw [process]⟩

end Sample

end CometArchive.Ingest
