import CometArchive.Blocksync.Cancellation
import CometArchive.Blocksync.ColdProgress

set_option autoImplicit false

namespace CometArchive.Blocksync

open GoBytes GoError Archive Programs Programs.Fallible Runs

section Requests

variable {V : Type} {host : Host V} {manifestKey : String} {contentOf : String → Bytes} {coldSource : Bool}
  {trace : Served}

def serveClient (contentOf : String → Bytes) : Client contentOf ServeOp ServeOp.Res (Node contentOf) where
  world := Node.cold
  cold
    | .cold op => some ⟨op, fun answer => answer⟩
    | _ => none

theorem serveClient_calls : (serveClient contentOf).calls = coldPart := by
  have same : (serveClient contentOf).entry = coldEntry := by
    funext ⟨op, answer⟩
    cases op with
    | cold op => rfl
    | _ => rfl
  funext trace
  rw [Client.calls, same, coldPart]

def ServeSlots (trace : Served) : ServeOp → Prop
  | .cold op => SlotMay (coldPart trace) op
  | _ => Released (coldPart trace)

abbrev Frees {α : Type} (p : Serve α) (trace : Served) : Prop :=
  p.Ok ServeSlots (fun later _ => Released (coldPart later)) (fun later _ => Released (coldPart later)) trace

theorem Frees.query (op : ServeOp) (other : ∀ call, op ≠ .cold call) (free : Released (coldPart trace)) :
    Frees (Fallible.query op) trace := by
  cases op with
  | cold call => exact absurd rfl (other call)
  | _ => exact Ok.query _ free fun answer => by rwa [coldPart_other _ rfl]

theorem Frees.onCold {α : Type} {p : C α} (ok : p.Ok SlotMay (fun later _ => Released later) (fun later _ => Released later)
    (coldPart trace)) : Frees (onCold (outcome p)) trace := by
  have inner : (outcome p).Ok SlotMay (fun later _ => Released later) (fun later _ => Released later) (coldPart trace) :=
    Ok.outcome ok
  exact Ok.embed ServeOp.cold (fun _ answer => answer) coldPart coldPart_cold (fun _ _ allowed => allowed) inner

theorem respondToColdBlockRequest_slots {fuel : Nat} {height : Int} (opened : Opened host manifestKey)
    (free : Released (coldPart trace)) : Frees (respondToColdBlockRequest host manifestKey fuel height) trace := by
  unfold respondToColdBlockRequest
  apply Ok.bind
  refine (Frees.onCold (advertisedRange_slots opened free)).mono (fun _ _ released => released) ?_
  intro later result released
  have denies := Frees.query (.sendNoBlock height) (by simp) released
  cases result with
  | error err => exact denies
  | ok advertised =>
    dsimp only
    split
    · exact denies
    · apply Ok.bind
      refine (Frees.onCold (loadBlock_slots opened released)).mono (fun _ _ released => released) ?_
      intro further result released
      cases result with
      | error err => exact Frees.query (.sendNoBlock height) (by simp) released
      | ok block => exact Frees.query (.sendBlock block) (by simp) released

theorem respondToBlockRequest_slots {fuel : Nat} {height : Int} (opened : Opened host manifestKey)
    (free : Released (coldPart trace)) : Frees (respondToBlockRequest host manifestKey coldSource fuel height) trace := by
  unfold respondToBlockRequest
  apply Ok.bind
  refine (Frees.query (.loadHotBlock height) (by simp) free).mono (fun _ _ released => released) ?_
  intro later found released
  cases found with
  | some block => exact Frees.query (.sendBlock block) (by simp) released
  | none =>
    dsimp only
    split
    · apply Ok.bind
      refine (Frees.query (.enqueueColdBlockRequest height) (by simp) released).mono
        (fun _ _ released => released) ?_
      intro further queued released
      cases queued with
      | true => exact respondToColdBlockRequest_slots opened released
      | false => exact Ok.pure released
    · exact Frees.query (.sendNoBlock height) (by simp) released

theorem sendStatus_slots (free : Released (coldPart trace)) : Frees (sendStatus coldSource) trace := by
  unfold sendStatus cachedAdvertisedRange
  apply Ok.bind
  apply Ok.bind
  refine (Frees.query .hotRange (by simp) free).mono (fun _ _ released => released) ?_
  intro later hot released
  have sends := fun range => Frees.query (.sendStatus range) (by simp) released
  split
  · exact Ok.pure (sends hot)
  · apply Ok.bind
    refine (Frees.query .loadCachedRange (by simp) released).mono (fun _ _ released => released) ?_
    intro further cached released
    have sends := fun range => Frees.query (.sendStatus range) (by simp) released
    cases cached with
    | none => exact Ok.pure (sends hot)
    | some cached => exact Ok.pure (sends _)

theorem refreshAdvertisedRange_slots (opened : Opened host manifestKey) (free : Released (coldPart trace)) :
    Frees (refreshAdvertisedRange host manifestKey coldSource) trace := by
  unfold refreshAdvertisedRange
  apply Ok.bind
  refine (Frees.query .hotRange (by simp) free).mono (fun _ _ released => released) ?_
  intro later hot released
  split
  · exact Ok.pure released
  · apply Ok.bind
    refine (Frees.onCold (advertisedRange_slots opened released)).mono (fun _ _ released => released) ?_
    intro further result released
    cases result with
    | error err =>
      apply Ok.bind
      refine (Frees.query .loadCachedRange (by simp) released).mono (fun _ _ released => released) ?_
      intro last cached released
      cases cached with
      | none => exact Ok.pure released
      | some cached => exact Ok.pure released
    | ok cold =>
      apply Ok.bind
      refine (Frees.query (.storeCachedRange cold) (by simp) released).mono (fun _ _ released => released) ?_
      exact fun _ _ released => Ok.pure released

theorem ServeJob.frees (opened : Opened host manifestKey) (job : ServeJob) :
    (job.program host manifestKey coldSource).All ServeSlots (fun later _ => Released (coldPart later)) [] := by
  have idle : Released (coldPart []) := ⟨rfl, rfl⟩
  cases job with
  | sendStatus => exact (sendStatus_slots idle).always
  | refreshAdvertisedRange =>
    refine Ok.always (Ok.bind ((refreshAdvertisedRange_slots opened idle).mono (fun _ _ released => released) ?_))
    exact fun _ _ released => Ok.pure released
  | respondToBlockRequest fuel height => exact (respondToBlockRequest_slots opened idle).always

theorem ServeJob.may (opened : Opened host manifestKey) (job : ServeJob) :
    (job.program host manifestKey coldSource).All ((serveClient contentOf).May host manifestKey)
      (fun later _ => Released ((serveClient contentOf).calls later)) [] := by
  refine ((job.follows opened).and (job.frees opened)).weaken ?_ |>.mono ?_
  · rintro trace op ⟨cold, slots⟩
    refine ⟨?_, ?_⟩
    · intro call is
      rw [serveClient_calls]
      cases op with
      | cold op =>
        cases is
        exact ⟨cold, slots⟩
      | _ => cases is
    · intro is
      rw [serveClient_calls]
      cases op with
      | cold op => cases is
      | _ => exact slots
  · intro later value holds
    rw [serveClient_calls]
    exact holds.2

variable {honest : ObjectStore contentOf → (op : Archive.Op) → op.Res → Prop} {patient : Prop}
  {grows : ObjectStore contentOf → ObjectStore contentOf → Prop}

end Requests

section RequestSample

end RequestSample

section Calls

variable {V : Type} {host : Host V} {manifestKey : String} {contentOf : String → Bytes} {trace : ContextCalls}

def Read (s : ObjectStore contentOf) (op : Archive.Op) (answer : op.Res) : Prop := Faithful s op answer ∨ Interrupted op answer

end Calls

section CallSample

end CallSample

end CometArchive.Blocksync
