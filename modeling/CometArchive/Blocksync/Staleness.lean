import CometArchive.Blocksync.RequestProgress

set_option autoImplicit false

namespace CometArchive.Blocksync

open GoBytes GoError Archive Programs Programs.Fallible Runs

section Expiry

variable {contentOf : String → Bytes} {w w' : World contentOf}

/-- While a manifest is being loaded, none is cached that may be used. -/
def Expired (w : World contentOf) : Prop :=
  ∀ flight, w.source.manifestFlight = some flight → w.source.freshManifest w.now = none

theorem Expired.still (expired : Expired w) (flights : w'.source.manifestFlight = w.source.manifestFlight)
    (cached : w'.source.cachedManifest = w.source.cachedManifest)
    (ttl : w'.source.manifestCacheTTL = w.source.manifestCacheTTL) (now : w.now ≤ w'.now) : Expired w' := by
  intro flight flying
  have none := expired flight (flights ▸ flying)
  unfold ArchiveBlockSource.freshManifest at none ⊢
  rw [cached, ttl]
  cases found : w.source.cachedManifest with
  | none => rfl
  | some entry =>
    obtain ⟨manifest, loadedAt⟩ := entry
    rw [found] at none
    dsimp only at none ⊢
    split at none
    · cases none
    next old => exact if_neg fun young => old ⟨young.1, by omega⟩

theorem Expired.step {honest : ObjectStore contentOf → (op : Op) → op.Res → Prop} {patient : Prop} {op : ColdOp}
    {answer : op.Res} (expired : Expired w) (taken : ColdEffect honest patient op w answer w') : Expired w' := by
  cases op with
  | enterManifest =>
    obtain ⟨-, rfl⟩ := taken
    unfold ArchiveBlockSource.enterManifest
    cases fresh : w.source.freshManifest w.now with
    | some m => exact expired
    | none =>
      cases w.source.manifestFlight with
      | some flight => exact expired
      | none => exact fun _ _ => fresh
  | finishManifest flight result =>
    cases taken
    rintro _ ⟨⟩
  | finishSegment text flight result =>
    obtain ⟨source, finished, rfl⟩ := taken
    have kept := ArchiveBlockSource.finishSegment_spec finished
    exact expired.still kept.manifestFlight kept.cachedManifest kept.ttl le_rfl
  | _ =>
    obtain ⟨source, rfl, move⟩ := taken.move
    cases move with
    | _ => exact expired.still rfl rfl rfl le_rfl

end Expiry

section Denials

variable {V : Type} {host : Host V} {manifestKey : String} {contentOf : String → Bytes} {height : Int}

section Runs

variable {m : Machine (Node contentOf) ServeOp ServeOp.Res (Except Err Unit)}

variable {id fuel : Nat}

end Runs

end Denials

section Sample

end Sample

end CometArchive.Blocksync
