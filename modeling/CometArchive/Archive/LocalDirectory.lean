import CometArchive.Archive.LocalRefinement

set_option autoImplicit false

namespace CometArchive.Archive

open GoBytes GoError GoText Programs Programs.Fallible Files

namespace Usage

variable {u : Usage} {id : Nat} {fs : FileSystem} {key : String} {op : Op} {α β : Type}
  {fail : Err → Option (op.Res → Prop) → FileSystem → Prop} {post : α → Option (op.Res → Prop) → FileSystem → Prop}
  {g : Option (op.Res → Prop)}

def Allowed (u : Usage) : Op → Prop
  -- the calls that are made of a store that is used in this way
  | .get key | .getVersioned key | .existsKey key | .stat key => u.uploads key ∨ u.swaps key
  | .putIfAbsent key data => u.uploads key ∧ u.Known data
  | .compareAndSwap key data _ => u.swaps key ∧ u.Known data
  | .putIfAbsentReturningETag _ _ => False
  | _ => True

theorem place (used : u.uploads key ∨ u.swaps key) :
    (∃ path, u.Places key path) ∨ ∃ err, pathForKey u.store.root key = .error err ∧ validateObjectKey key = .error err ∧
      PlainError err := by
  cases valid : validateObjectKey key with
  | ok => exact .inl ⟨_, used, by rw [pathForKey, valid]; rfl⟩
  | error err =>
    exact .inr ⟨err, by rw [pathForKey, valid]; rfl, rfl, plainError_of (validateObjectKey_plain key) valid⟩

theorem refused_part {result : Except Err β} {f : β → LocalM α} {err : Err} (failed : result = .error err)
    (ends : ∀ t, fail err g t) : u.Part id op fail post (lift result >>= f) g fs := by
  subst failed
  refine Careful.check ?_ ?_
  · rintro _ t ⟨⟩ _ _
    exact ends t
  · rintro _ ⟨⟩

theorem carry_carries (layout : u.Layout) (fuel : Nat) (allowed : u.Allowed op) :
    Prog.Carries u.conduct u.Stored u.objects id op (u.store.carry u.codec fuel op) none fs := by
  cases op with
  | get key =>
    rcases place allowed with ⟨path, places⟩ | ⟨err, invalid, -, plain⟩
    · exact get_carries layout places
    · exact Part.carries (refused_part invalid fun t => ⟨rfl, misses_of_plain plain⟩)
  | getVersioned key =>
    rcases place allowed with ⟨path, places⟩ | ⟨err, invalid, -, plain⟩
    · exact getVersioned_carries layout places
    · exact Part.carries (Careful.bind (refused_part invalid fun t _ _ _ => ⟨rfl, misses_of_plain plain⟩))
  | existsKey key =>
    rcases place allowed with ⟨path, places⟩ | ⟨err, invalid, -, plain⟩
    · exact existsKey_carries layout places
    · exact Part.carries (refused_part invalid fun t => rfl)
  | stat key =>
    rcases place allowed with ⟨path, places⟩ | ⟨err, invalid, -, plain⟩
    · exact stat_carries layout places
    · exact Part.carries (refused_part invalid fun t => ⟨rfl, misses_of_plain plain⟩)
  | putIfAbsent key data =>
    rcases place (.inl allowed.1) with ⟨path, places⟩ | ⟨err, invalid, -, plain⟩
    · exact putIfAbsent_carries layout allowed.1 places allowed.2
    · exact Part.carries (refused_part invalid fun t => .inl rfl)
  | compareAndSwap key data revision =>
    rcases place (.inr allowed.1) with ⟨path, places⟩ | ⟨err, -, invalid, plain⟩
    · exact compareAndSwap_carries layout allowed.1 places allowed.2 fuel
    · exact Part.carries (refused_part invalid fun t => .inl rfl)
  | putIfAbsentReturningETag key data => exact allowed.elim
  | _ =>
    intro t _ orderly answer t' taken
    cases (show t' = t from taken)
    exact ⟨orderly, fun other _ => .refl other t, none, .inl ⟨rfl, rfl⟩, fun _ _ _ => rfl⟩

variable {L : Type} (env : ObjectStore u.contentOf → L → ObjectStore u.contentOf → Prop)

/-- Processes that share a directory, however their calls interleave and whoever of them dies, find what they would
find in an object store that takes each call in one step. -/
theorem local_store_refines {fuel : Nat} {init : FileSystem} {events : List (CarryEvent Op Op.Res α)}
    {d : Carrier FileSystem Op Op.Res LocalOp LocalOp.Res α} (keys : u.Keys) (orderly : u.Orderly init)
    (run : Runs.Run (CarryStep u.conduct (u.store.carry u.codec fuel)) (Carrier.idle init) events d)
    (jobs : ∀ id p, .spawn id p ∈ events → p.All (fun _ op => u.Allowed op) (fun _ _ => True) []) :
    u.Orderly d.shared ∧ ∃ steps m, Runs.Run (Step u.Stored env) (Machine.idle (u.objects init)) steps m ∧
      m.shared = u.objects d.shared ∧ (∀ id, Appears (d.procs id) (m.procs id)) ∧
      ∀ id p, .spawn id p ∈ steps → .spawn id p ∈ events := by
  refine CarryRun.matched (c := u.conduct) orderly (fun id op s allowed _ => carry_carries keys.layout fuel allowed) ?_ run jobs
  rintro id fs _ _ rfl
  rfl

end Usage

section Sample

def freshName (fs : FileSystem) (dir lead : String) : String :=
  -- a name with the number of the inode in the place of random digits
  (if dir.toList.getLast? = some '/' then dir else dir ++ "/") ++ (lead ++ Nat.repr fs.next)

theorem freshName_temporary (fs : FileSystem) (dir lead : String) : temporaryName dir lead (freshName fs dir lead) := by
  refine ⟨Nat.repr fs.next, fun c member => ?_, rfl⟩
  rw [Nat.repr, String.toList_ofList] at member
  exact Nat.isDigit_of_mem_toDigits (by decide) (by decide) member

-- the context is live, and there is nothing but the store
def idleAnswer : (op : Op) → op.Res
  | .get _ | .getVersioned _ | .existsKey _ | .stat _ | .putIfAbsent _ _ | .putIfAbsentReturningETag _ _
  | .compareAndSwap _ _ _ | .pruneHotStore _ _ | .mkdirAll _ | .atomicWriteFile _ _ | .enforceCacheLimit _ _ =>
    .error (.new "not supported")
  | .ctxErr => .ok ()
  | .base | .height | .archiveHeightLimit | .now => (0 : Int)
  | .loadBlock _ => none
  | .pick _ => (0 : Nat)

def serveLocal (id : Nat) : (op : LocalOp) → FileSystem → op.Res × FileSystem
  | .file call, fs => serveFile freshName id call fs
  | .other op, fs => (idleAnswer op, fs)

theorem serveLocal_effect (id : Nat) (op : LocalOp) (fs : FileSystem) :
    LocalEffect id op fs (serveLocal id op fs).1 (serveLocal id op fs).2 := by
  cases op with
  | file call => exact serveFile_effect freshName_temporary call
  | other op => rfl

def pairUsage : Usage where
  codec := { Codec.plain with sha256 := fun data => 0 :: data }
  store := ⟨"/store"⟩
  contentOf revision := if revision = asciiText (hexEncode [0, 1]) then [1] else [2]
  uploads key := key = "s/1"
  swaps key := key = "m"

theorem pairUsage_keys : pairUsage.Keys where
  once := by
    rintro _ rfl (other : "s/1" = "m")
    exact absurd other (by decide)
  apart := by
    rintro key other (rfl | rfl) (rfl | rfl) longer
    · rfl
    · exact absurd longer (by decide +kernel)
    · exact absurd longer (by decide +kernel)
    · rfl
  unlocked := by
    rintro key (rfl | rfl)
    · decide +kernel
    · decide +kernel
  finished := by
    rintro key (rfl | rfl)
    · decide +kernel
    · decide +kernel
  digests data empty := by
    have none := congrArg String.toList empty
    simp [Usage.revision, objectRevision, asciiText, pairUsage, hexEncode] at none

def emptyDirectory : FileSystem where
  entries path := if path = "/" ∨ path = "/store" then some .directory else none
  data _ := []
  next := 0
  maker _ := 0
  writable _ := false
  issued _ := none
  holder _ := none

theorem pairUsage_places {key path : String} (places : pairUsage.Places key path) :
    key = "s/1" ∧ path = "/store/s/1" ∨ key = "m" ∧ path = "/store/m" := by
  have segment : pathForKey "/store" "s/1" = .ok "/store/s/1" := by decide +kernel
  have manifest : pathForKey "/store" "m" = .ok "/store/m" := by decide +kernel
  obtain ⟨rfl | rfl, found⟩ := places
  · exact .inl ⟨rfl, Except.ok.inj (found.symm.trans segment)⟩
  · exact .inr ⟨rfl, Except.ok.inj (found.symm.trans manifest)⟩

theorem emptyDirectory_orderly : pairUsage.Orderly emptyDirectory where
  objects places found := by
    rcases pairUsage_places places with ⟨-, rfl⟩ | ⟨-, rfl⟩
    · cases found
    · cases found
  used found := by
    unfold emptyDirectory at found
    dsimp only at found
    split at found
    · cases found
    · cases found
  named issued := by cases issued

-- an upload and a swap at the same time; the uploading process dies after its file is linked, before it is told
def pairCalls : List (CarryEvent Op Op.Res (Option Bytes)) :=
  [.spawn 0 (.call (.putIfAbsent "s/1" [1]) fun _ => .ret none),
    .spawn 1 (.call (.get "s/1") fun answer => .ret answer.toOption),
    .spawn 2 (.call (.compareAndSwap "m" [2] "") fun answer => .ret (answer.toOption.map fun _ => [])),
    .enter 0, .enter 2] ++
  List.replicate 5 (.run 0) ++ List.replicate 8 (.run 2) ++ List.replicate 7 (.run 0) ++ [.kill 0, .enter 1] ++
  List.replicate 5 (.run 1) ++ List.replicate 11 (.run 2) ++ [.leave 1, .leave 2]

def resultOf (d : Carrier FileSystem Op Op.Res LocalOp LocalOp.Res (Option Bytes)) (id : Nat) : Option (Option Bytes) :=
  match d.procs id with
  | some (.between ⟨.ret value, _⟩) => some value
  | _ => none

theorem resultOf_eq_some {d : Carrier FileSystem Op Op.Res LocalOp LocalOp.Res (Option Bytes)} {id : Nat}
    {value : Option Bytes} (returned : resultOf d id = some value) :
    ∃ trace, d.procs id = some (.between ⟨.ret value, trace⟩) := by
  unfold resultOf at returned
  split at returned
  next found =>
    cases returned
    exact ⟨_, found⟩
  next => cases returned

theorem local_store_refines_sample :
    ∃ (d : Carrier FileSystem Op Op.Res LocalOp LocalOp.Res (Option Bytes)) (steps : List (Event Op Op.Res (Option Bytes) Unit))
      (m : Machine (ObjectStore pairUsage.contentOf) Op Op.Res (Option Bytes)) (trace : Trace Op Op.Res),
    Runs.Run (CarryStep pairUsage.conduct (pairUsage.store.carry pairUsage.codec 3)) (Carrier.idle emptyDirectory)
      pairCalls d ∧ d.procs 0 = none ∧
    Runs.Run (Step pairUsage.Stored fun _ _ _ => False) (Machine.idle (pairUsage.objects emptyDirectory)) steps m ∧
    m.procs 1 = some ⟨.ret (some [1]), trace⟩ ∧
    m.shared.objects "m" = some ⟨[2], pairUsage.revision [2]⟩ := by
  have ends : (playCarry serveLocal (fun id fs => fs.unlock id fun _ => True) (pairUsage.store.carry pairUsage.codec 3)
      pairCalls (Carrier.idle emptyDirectory)).map (fun d => ((d.procs 0).isNone, resultOf d 1,
        d.shared.entries "/store/m", d.shared.data 2)) = some (true, some (some [1]), some (.file 2), [2]) := by
    decide +kernel
  obtain ⟨d, played, after⟩ := Option.map_eq_some_iff.mp ends
  simp only [Prod.mk.injEq, Option.isNone_iff_eq_none] at after
  obtain ⟨dead, returned, there, data⟩ := after
  obtain ⟨trace, found⟩ := resultOf_eq_some returned
  have run : Runs.Run (CarryStep pairUsage.conduct (pairUsage.store.carry pairUsage.codec 3)) (Carrier.idle emptyDirectory)
      pairCalls d := playCarry_run serveLocal_effect (fun _ _ => rfl) played
  have known : pairUsage.Known [1] ∧ pairUsage.Known [2] := by
    refine ⟨⟨?_, ?_⟩, ?_, ?_⟩
    all_goals decide +kernel
  obtain ⟨orderly, steps, m, matched, shared, appears, -⟩ := Usage.local_store_refines (u := pairUsage)
    (fun _ (_ : Unit) _ => False) pairUsage_keys emptyDirectory_orderly run (by
      intro id p spawned
      simp only [pairCalls, List.cons_append, List.nil_append, List.append_assoc, List.mem_cons, List.mem_append,
        CarryEvent.spawn.injEq, reduceCtorEq, List.not_mem_nil, List.mem_replicate, and_false, or_false] at spawned
      rcases spawned with ⟨-, rfl⟩ | ⟨-, rfl⟩ | ⟨-, rfl⟩
      · exact ⟨⟨rfl, known.1⟩, fun _ => trivial⟩
      · exact ⟨.inl rfl, fun _ => trivial⟩
      · exact ⟨⟨rfl, known.2⟩, fun _ => trivial⟩)
  have mine := appears 1
  rw [found] at mine
  generalize here : m.procs 1 = proc at mine
  cases mine
  have places : pairUsage.Places "m" "/store/m" := ⟨.inr rfl, by decide +kernel⟩
  refine ⟨d, steps, m, trace, run, dead, matched, here, ?_⟩
  rw [shared, orderly.found places there, data]

end Sample

end CometArchive.Archive
