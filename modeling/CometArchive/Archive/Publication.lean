import CometArchive.Archive.Fleet

set_option autoImplicit false

namespace CometArchive.Archive

open GoBytes GoError Programs Runs

variable {V : Type} {host : Host V} {contentOf : String → Bytes} {stores : Bytes → Bytes → Prop} {key : String}

abbrev Site (contentOf : String → Bytes) := Machine (ObjectStore contentOf) Op Op.Res (Except Err Unit)

abbrev SiteEvent := Event Op Op.Res (Except Err Unit) Empty

def noEnv (_ : ObjectStore contentOf) (label : Empty) (_ : ObjectStore contentOf) : Prop := label.elim

def Fleet (host : Host V) (key : String) (events : List SiteEvent) : Prop :=
  ∀ id p, .spawn id p ∈ events → ∃ job : Job, job.key = key ∧ p = job.program host

def manifestAt (host : Host V) (key : String) (s : ObjectStore contentOf) : Option Manifest :=
  (s.objects key).bind fun object => (host.json.unmarshalManifest object.data).toOption

def Revised (contentOf : String → Bytes) : Entry Op Op.Res → Prop
  -- a revision that was seen determines the content
  | ⟨.getVersioned _, .ok (data, revision)⟩ => revision ≠ "" ∧ contentOf revision = data
  | ⟨.compareAndSwap _ data _, .ok revision⟩ => revision ≠ "" ∧ contentOf revision = data
  | _ => True

theorem known_revised {history : History} (facts : ∀ entry ∈ history, Revised contentOf entry) {data : Bytes}
    {revision : String} (found : known key history = .found data revision) :
    revision ≠ "" ∧ contentOf revision = data := by
  induction history using List.reverseRecOn with
  | nil => cases found
  | append_singleton history entry ih =>
    have before := ih fun other member => facts other (List.mem_append_left _ member)
    have last := facts entry (mem_snoc ..)
    rw [known_snoc] at found
    obtain ⟨op, answer⟩ := entry
    cases op with
    | getVersioned other =>
      rcases answer with err | ⟨seen, at'⟩
      · simp only [learn] at found
        split at found
        · cases found
        · exact before found
      · simp only [learn] at found
        split at found
        · cases found
          exact last
        · exact before found
    | compareAndSwap other written expected =>
      cases answer with
      | error err =>
        simp only [learn] at found
        split at found
        · cases found
        · exact before found
      | ok new =>
        simp only [learn] at found
        split at found
        · cases found
          exact last
        · exact before found
    | _ => exact before found

theorem Effect.revised {codec : Codec} {op : Op} {s s' : ObjectStore contentOf} {answer : op.Res}
    (taken : Effect codec stores op s answer s') : Revised contentOf ⟨op, answer⟩ := by
  cases op with
  | getVersioned other =>
    rcases answer with err | ⟨data, revision⟩
    · exact trivial
    · exact s.determined other _ taken.2
  | compareAndSwap other data expected =>
    cases answer with
    | error err => exact trivial
    | ok revision =>
      have written : s'.objects other = some ⟨data, revision⟩ := by
        rw [show s'.objects = _ from taken.2, Function.update_self]
      exact s'.determined other _ written
  | _ => exact trivial

theorem Replaces.current {s : ObjectStore contentOf} {history : History} {data : Bytes} {revision : String}
    (replaces : Replaces host key history data revision) (facts : ∀ entry ∈ history, Revised contentOf entry)
    (matched : s.revision key = revision) :
    known key history = .missing ∧ s.objects key = none ∨
      ∃ old seen, known key history = .found old seen ∧ s.objects key = some ⟨old, seen⟩ := by
  obtain ⟨chainID, before, after, published, -⟩ := replaces
  have based := published.based
  rw [published.revision] at matched
  cases seen : known key history with
  | unknown => exact (seen ▸ based).elim
  | refused => exact (seen ▸ based).elim
  | missing =>
    rw [seen] at based
    exact .inl ⟨rfl, ObjectStore.revision_eq_empty.mp (matched.trans based.1)⟩
  | found old at' =>
    rw [seen] at based
    obtain ⟨named, content⟩ := known_revised facts seen
    have current := ObjectStore.eq_of_revision named (matched.trans based.1)
    rw [content] at current
    exact .inr ⟨old, at', rfl, current⟩

def Continues (before after : Manifest) : Prop :=
  -- the chain is the same, and a range that is there only grows at its end
  after.chainID = before.chainID ∧
    (before.segments ≠ [] →
      after.segments ≠ [] ∧ after.firstHeight = before.firstHeight ∧ before.lastHeight ≤ after.lastHeight)

theorem Continues.refl (m : Manifest) : Continues m m := ⟨rfl, fun filled => ⟨filled, rfl, le_rfl⟩⟩

theorem Continues.trans {a b c : Manifest} (first : Continues a b) (second : Continues b c) : Continues a c := by
  refine ⟨second.1.trans first.1, ?_⟩
  intro filled
  obtain ⟨filledB, startB, lastB⟩ := first.2 filled
  obtain ⟨filledC, startC, lastC⟩ := second.2 filledB
  exact ⟨filledC, startC.trans startB, lastB.trans lastC⟩

theorem Continues.of_content {a b a' b' : Manifest} (continues : Continues a b) (first : a'.content = a.content)
    (second : b'.content = b.content) : Continues a' b' := by
  simp only [Manifest.content, Manifest.mk.injEq, true_and] at first second
  obtain ⟨-, chainA, firstA, lastA, -, -, segmentsA⟩ := first
  obtain ⟨-, chainB, firstB, lastB, -, -, segmentsB⟩ := second
  unfold Continues
  rw [chainA, firstA, lastA, segmentsA, chainB, firstB, lastB, segmentsB]
  exact continues

theorem Replaces.continues {s s' : ObjectStore contentOf} {history : History} {data : Bytes}
    {revision newRevision : String} {published : Manifest} (replaces : Replaces host key history data revision)
    (facts : ∀ entry ∈ history, Revised contentOf entry) (matched : s.revision key = revision)
    (written : s'.objects key = some ⟨data, newRevision⟩) (stored : manifestAt host key s = some published) :
    ∃ current, manifestAt host key s' = some current ∧ Continues published current := by
  have replaced := replaces.current facts matched
  obtain ⟨chainID, before, after, publication, range, filled, -⟩ := replaces
  rcases replaced with ⟨-, absent⟩ | ⟨old, seen, seenOld, present⟩
  · simp [manifestAt, absent] at stored
  · have based := publication.based
    rw [seenOld] at based
    obtain ⟨-, -, read, parsed, content⟩ := based
    obtain ⟨readAfter, parsedAfter, contentAfter⟩ := publication.encoded
    simp only [manifestAt, present, Option.bind_some, parsed, Except.toOption, Option.some.injEq] at stored
    subst stored
    refine ⟨readAfter, by simp [manifestAt, written, parsedAfter, Except.toOption], ?_⟩
    refine Continues.of_content ⟨publication.chainAfter.trans publication.chain.symm, ?_⟩ content contentAfter
    exact fun there => ⟨filled, range there⟩

section Runs

variable {start : ObjectStore contentOf} {m m' : Site contentOf} {events : List SiteEvent}

/-- Every process of a fleet follows the rules and knows only revisions that determine the content. -/
abbrev Site.Ruled (host : Host V) (key : String) (m : Site contentOf) : Prop :=
  m.Sound (fun _ => True) (fun _ entry => Revised contentOf entry) (May key (fun _ _ => True) (Replaces host key))
    fun later result => result = .ok () → known key later ≠ .refused

theorem Fleet.ruled (json : host.json.Lawful) (fleet : Fleet host key events) (ruled : m.Ruled host key)
    (run : Run (Step (Effect host.codec stores) noEnv) m events m') : m'.Ruled host key := by
  refine Programs.Run.sound ?_ ?_ run ?_ ruled
  · intro history op s answer s' _ _ _ taken
    exact ⟨trivial, fun entry fact => fact, taken.revised⟩
  · intro s label
    cases label
  · intro id p spawned
    obtain ⟨job, named, rfl⟩ := fleet id p spawned
    exact job.follows json named fun _ _ _ _ => trivial

theorem Site.Ruled.continues {event : SiteEvent} (ruled : m.Ruled host key)
    (step : Step (Effect host.codec stores) noEnv m event m') {published : Manifest}
    (stored : manifestAt host key m.shared = some published) :
    ∃ current, manifestAt host key m'.shared = some current ∧ Continues published current := by
  cases step with
  | spawn free => exact ⟨published, stored, .refl _⟩
  | kill => exact ⟨published, stored, .refl _⟩
  | @env label => cases label
  | @run id op next history answer shared present taken =>
    obtain ⟨all, facts⟩ := ruled.procs id _ present
    rcases taken.touch key with same | ⟨absent, -⟩ | ⟨data, revision, newRevision, rfl, matched, written⟩
    · refine ⟨published, ?_, .refl _⟩
      rw [← stored]
      simp only [manifestAt, same]
    · simp [manifestAt, absent] at stored
    · exact (all.1.2 rfl).continues facts matched written stored

theorem Site.Ruled.run_continues (json : host.json.Lawful) (fleet : Fleet host key events) (ruled : m.Ruled host key)
    (run : Run (Step (Effect host.codec stores) noEnv) m events m') {published : Manifest}
    (stored : manifestAt host key m.shared = some published) :
    ∃ current, manifestAt host key m'.shared = some current ∧ Continues published current := by
  induction run with
  | refl => exact ⟨published, stored, .refl _⟩
  | snoc before taken ih =>
    have earlier : Fleet host key _ := fun id p member => fleet id p (List.mem_append_left _ member)
    obtain ⟨middle, there, first⟩ := ih earlier
    obtain ⟨current, here, second⟩ := (Fleet.ruled json earlier ruled before).continues taken there
    exact ⟨current, here, first.trans second⟩

theorem refused_ends {p : Prog Op Op.Res (Except Err Unit)} {history : History} {uploads : String → Bytes → Prop}
    {publishes : History → Bytes → String → Prop} (refused : known key history = .refused)
    (all : p.All (May key uploads publishes) (fun later result => result = .ok () → known key later ≠ .refused) history) :
    ∃ err, p = .ret (.error err) := by
  -- a process whose conditional write failed is through, and failed
  cases p with
  | call op next => exact absurd refused all.1.1
  | ret result =>
    cases result with
    | error err => exact ⟨err, rfl⟩
    | ok _ => exact absurd refused (all rfl)

end Runs

/-- The manifests at one key, over any run of any number of jobs on any store. -/
theorem no_lost_update {start : ObjectStore contentOf} {m m' : Site contentOf} {events more : List SiteEvent}
    (json : host.json.Lawful) (fleet : Fleet host key (events ++ more))
    (run : Run (Step (Effect host.codec stores) noEnv) (.idle start) events m)
    (later : Run (Step (Effect host.codec stores) noEnv) m more m') :
    -- a manifest that is stored is only ever continued
    (∀ published, manifestAt host key m.shared = some published →
      ∃ current, manifestAt host key m'.shared = some current ∧ Continues published current) ∧
    -- a publication that succeeds replaces what its writer loaded or last published
    (∀ id data revision next history newRevision shared,
      m.procs id = some ⟨.call (.compareAndSwap key data revision) next, history⟩ →
      Effect host.codec stores (.compareAndSwap key data revision) m.shared (.ok newRevision) shared →
        shared.objects key = some ⟨data, newRevision⟩ ∧
        (known key history = .missing ∧ m.shared.objects key = none ∨
          ∃ old seen, known key history = .found old seen ∧ m.shared.objects key = some ⟨old, seen⟩)) ∧
    -- one under a stale revision changes nothing, and its writer fails
    ∀ id data revision next history answer shared,
      m.procs id = some ⟨.call (.compareAndSwap key data revision) next, history⟩ → m.shared.revision key ≠ revision →
      Effect host.codec stores (.compareAndSwap key data revision) m.shared answer shared →
        shared = m.shared ∧ ∃ err, next answer = .ret (.error err) := by
  have ruled : m.Ruled host key := Fleet.ruled json (fun id p member => fleet id p (List.mem_append_left _ member))
    (Machine.idle_sound trivial) run
  refine ⟨?_, ?_, ?_⟩
  · intro published stored
    exact ruled.run_continues json (fun id p member => fleet id p (List.mem_append_right _ member)) later stored
  · intro id data revision next history newRevision shared present taken
    obtain ⟨all, facts⟩ := ruled.procs id _ present
    obtain ⟨matched, written⟩ := taken
    refine ⟨?_, (all.1.2 rfl).current facts matched⟩
    rw [show shared.objects = _ from written, Function.update_self]
  · intro id data revision next history answer shared present stale taken
    obtain ⟨all, -⟩ := ruled.procs id _ present
    cases answer with
    | ok newRevision => exact absurd taken.1 stale
    | error err =>
      have unchanged : shared = m.shared := taken.resolve_right fun ⟨_, swaps⟩ => stale swaps.1
      refine ⟨unchanged, refused_ends ?_ (all.2 (.error err))⟩
      simp [known_snoc, learn]

theorem sampleStore_manifest : manifestAt sampleHost (sampleJob "").key (sampleStore "" 30) = some sampleManifest := by
  decide +kernel

def sampleWriter : Proc Op Op.Res (Except Err Unit) := ⟨(sampleJob "").program sampleHost, []⟩

def staleWriter : Proc Op Op.Res (Except Err Unit) × ObjectStore spelledContent :=
  drive (serve sampleCodec sampleSource) 10 sampleWriter .empty

def publishedStore : ObjectStore spelledContent := (drive (serve sampleCodec sampleSource) 30 sampleWriter staleWriter.2).2

def creates (key : String) (proc : Proc Op Op.Res (Except Err Unit)) : Bool :=
  match proc.rest with
  | .call (.compareAndSwap other _ revision) _ => other == key && revision == ""
  | _ => false

theorem exists_creates {proc : Proc Op Op.Res (Except Err Unit)} (due : creates key proc = true) :
    ∃ data next, proc = ⟨.call (.compareAndSwap key data "") next, proc.trace⟩ := by
  obtain ⟨rest, trace⟩ := proc
  unfold creates at due
  split at due
  next other data revision next same =>
    simp only [Bool.and_eq_true, beq_iff_eq] at due
    obtain ⟨rfl, rfl⟩ := due
    dsimp only at same
    exact ⟨data, next, by rw [same]⟩
  next => cases due

theorem no_lost_update_sample : ∃ (events more : List SiteEvent) (m m' : Site spelledContent),
    Fleet sampleHost (sampleJob "").key (events ++ more) ∧
      Run (Step (Effect sampleHost.codec (fun data stored => stored = data)) noEnv) (.idle .empty) events m ∧
      Run (Step (Effect sampleHost.codec (fun data stored => stored = data)) noEnv) m more m' ∧
      manifestAt sampleHost (sampleJob "").key m.shared = some sampleManifest ∧ m'.shared = m.shared ∧
      (∃ err proc, m'.procs 1 = some proc ∧ proc.rest = .ret (.error err)) ∧
      ∃ current, manifestAt sampleHost (sampleJob "").key m'.shared = some current ∧ Continues sampleManifest current := by
  -- of two writers that found no manifest the second one fails, and what the first one published stays
  have served : ∀ op s, Effect sampleHost.codec (fun data stored => stored = data) op s
      (serve sampleCodec sampleSource op s).1 (serve sampleCodec sampleSource op s).2 := serve_effect fun _ => rfl
  have stored : manifestAt sampleHost (sampleJob "").key publishedStore = some sampleManifest := by decide +kernel
  have stale : publishedStore.revision (sampleJob "").key ≠ "" := by decide +kernel
  obtain ⟨data, next, creating⟩ := exists_creates (by decide +kernel : creates (sampleJob "").key staleWriter.1 = true)
  have walk₁ := drive_walk served 10 sampleWriter ObjectStore.empty
  have walk₀ := drive_walk served 30 sampleWriter staleWriter.2
  change Walk _ sampleWriter ObjectStore.empty staleWriter.1 staleWriter.2 at walk₁
  change Walk _ sampleWriter staleWriter.2 _ publishedStore at walk₀
  rw [creating] at walk₁
  -- what is stored is a long computation, and plays no part from here on
  generalize staleWriter.1.trace = trace at walk₁
  generalize (drive (serve sampleCodec sampleSource) 30 sampleWriter staleWriter.2).1 = done at walk₀
  generalize publishedStore = last at walk₀ stored stale
  generalize staleWriter.2 = mid at walk₁ walk₀
  let spawned : Site spelledContent :=
    ⟨.empty, Function.update (Function.update (fun _ => none) 1 (some sampleWriter)) 0 (some sampleWriter)⟩
  have spawns : Run (Step (Effect sampleHost.codec (fun data stored => stored = data)) noEnv) (.idle .empty)
      [.spawn 1 sampleWriter.rest, .spawn 0 sampleWriter.rest] spawned := .cons (.spawn rfl) (.cons (.spawn rfl) .refl)
  let due : Site spelledContent :=
    ⟨mid, Function.update spawned.procs 1 (some ⟨.call (.compareAndSwap (sampleJob "").key data "") next, trace⟩)⟩
  obtain ⟨k₁, run₁⟩ : ∃ k, Run (Step _ noEnv) spawned (List.replicate k (.run 1)) due := Run.walk walk₁ spawned 1 rfl rfl
  let through : Site spelledContent := ⟨last, Function.update due.procs 0 (some done)⟩
  obtain ⟨k₀, run₀⟩ : ∃ k, Run (Step _ noEnv) due (List.replicate k (.run 0)) through := Run.walk walk₀ due 0 rfl rfl
  have run := (spawns.append run₁).append run₀
  have swap := served (.compareAndSwap (sampleJob "").key data "") last
  have later : Run (Step (Effect sampleHost.codec (fun data stored => stored = data)) noEnv) through [.run 1] _ :=
    .cons (.run (show through.procs 1 = _ from rfl) swap) .refl
  have fleet : Fleet sampleHost (sampleJob "").key ([.spawn 1 sampleWriter.rest, .spawn 0 sampleWriter.rest] ++
      List.replicate k₁ (.run 1) ++ List.replicate k₀ (.run 0) ++ [.run 1]) := by
    intro id p member
    refine ⟨_, rfl, (?_ : p = sampleWriter.rest)⟩
    simp only [List.mem_append, List.mem_cons, List.mem_replicate, Event.spawn.injEq, reduceCtorEq, and_false, or_false,
      List.not_mem_nil] at member
    rcases member with ⟨-, same⟩ | ⟨-, same⟩
    · exact same
    · exact same
  obtain ⟨continued, -, refused⟩ := no_lost_update sampleHost_lawful fleet run later
  obtain ⟨same, err, ended⟩ := refused 1 data "" next trace _ _ rfl stale swap
  refine ⟨_, _, _, _, fleet, run, later, stored, same, ⟨err, _, rfl, ?_⟩, continued _ stored⟩
  exact ended

end CometArchive.Archive
