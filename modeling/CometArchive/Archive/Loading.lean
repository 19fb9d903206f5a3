import CometArchive.Archive.Verified
import CometArchive.Shared.Safety

set_option autoImplicit false

namespace CometArchive.Archive

open GoBytes GoError Programs Programs.Fallible

variable {V : Type} {host : Host V} {key : String}

structure Parses (host : Host V) (key : String) (data : Bytes) (revision : String) (m : Manifest) : Prop where
  -- the manifest a load makes of an object
  named : validateObjectKey key = .ok ()
  store : host.hasStore = true
  fits : (data.length : Int) ≤ maxManifestBytes
  parsed : ∃ read, host.json.unmarshalManifest data = .ok read ∧ m = { read with revision, sourceKey := key }
  valid : m.Valid

theorem Parses.loads {contentOf : String → Bytes} {s : ObjectStore contentOf} {data : Bytes} {revision : String}
    {m : Manifest} (parses : Parses host key data revision m) (stored : s.objects key = some ⟨data, revision⟩) :
    Loads host key s m := by
  obtain ⟨read, parsed, same⟩ := parses.parsed
  exact ⟨parses.named, parses.store, ⟨_, read, stored, parses.fits, parsed, same⟩, parses.valid⟩

/-- `seen` is what the answer of the call says of the state. -/
theorem loadManifest_safe {S : Type} {effect : (op : Op) → S → op.Res → S → Prop} {inv : S → Prop} {s : S}
    (seen : Except Err (Bytes × String) → S → Prop) (holds : inv s)
    (asked : ∀ answer s', effect (.getVersioned key) s answer s' → inv s' ∧ seen answer s') :
    (loadManifest host key).Safe effect inv (fun err s' => err.is .objectNotFound = true → seen (.error err) s')
      (fun m s' => ∃ data revision, seen (.ok (data, revision)) s' ∧ Parses host key data revision m) s := by
  -- the checks fail with texts
  have plain {α : Type} {result : Except Err α} (plain : Plain result) (s : S) :
      ∀ err, result = .error err → err.is .objectNotFound = true → seen (.error err) s := by
    intro err failed missing
    rw [plain err _ failed] at missing
    cases missing
  have text {cond : Prop} [Decidable cond] (message : String) :
      Plain (refuse cond (.new message : Err)) := Plain.refuse fun _ => rfl
  unfold loadManifest
  refine Safe.check holds (plain (Plain.wrapping (validateObjectKey_plain key)) s) fun _ named => ?_
  refine Safe.check holds (plain (text _) s) fun _ store => ?_
  refine Safe.bind (Safe.attempt holds ?_ ?_)
  · rintro answer err s' taken rfl
    obtain ⟨later, saw⟩ := asked _ s' taken
    exact ⟨later, fun _ => saw⟩
  · rintro answer ⟨data, revision⟩ s' taken rfl
    obtain ⟨later, saw⟩ := asked _ s' taken
    refine ⟨later, ?_⟩
    refine Safe.check later (plain (text _) s') fun _ fits => ?_
    refine Safe.check later (plain (textual_plain _) s') fun read parsed => ?_
    refine Safe.check later (plain (Manifest.validate_plain _) s') fun _ valid => ?_
    apply Safe.pure later
    refine ⟨data, revision, saw, wrapping_eq_ok.mp named, ?_, ?_, ⟨read, textual_eq_ok.mp parsed, rfl⟩,
      Manifest.validate_eq_ok.mp valid⟩
    · rw [refuse_eq_ok] at store
      exact Bool.not_eq_false _ ▸ store
    · rw [refuse_eq_ok] at fits
      omega

end CometArchive.Archive
