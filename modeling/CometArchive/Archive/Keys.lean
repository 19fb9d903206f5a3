import CometArchive.Comet.Block
import CometArchive.Shared.Text

set_option autoImplicit false

namespace CometArchive.Archive

open GoBytes GoError

def cleanStep (rooted : Bool) (stack : List (List Char)) (part : List Char) : List (List Char) :=
  -- one component of a path in `filepath.Clean`, with the components kept so far, last first
  if part = [] ∨ part = ['.'] then stack
  else if part = ['.', '.'] then
    match stack with
    | [] => if rooted then [] else [part]
    | top :: rest => if top = ['.', '.'] then part :: stack else rest
  else part :: stack

def filepathClean (value : String) : String :=
  let rooted := value.toList.head? == some '/'
  let parts := ((GoText.splitSlash value).foldl (cleanStep rooted) []).reverse
  let body := ['/'].intercalate parts
  if rooted then String.ofList ('/' :: body) else if body = [] then "." else String.ofList body

def validateObjectPath (label value : String) : Except Err Unit := do
  let invalid : Err := .new s!"invalid {label} {quoted value}"
  refuse (GoText.contains value '\\') invalid
  refuse ((GoText.splitSlash value).any fun part => part = [] ∨ part = ['.'] ∨ part = ['.', '.']) invalid
  let clean := filepathClean value
  refuse (clean = "." ∨ clean.toList.take 3 = ['.', '.', '/'] ∨ clean = ".." ∨ clean.toList.head? = some '/') invalid

def validateObjectKey (key : String) : Except Err Unit := do
  refuse (key = "") (.new "object key is required")
  validateObjectPath "object key" key

theorem validateObjectKey_plain (key : String) : Plain (validateObjectKey key) := by
  unfold validateObjectKey validateObjectPath
  repeat' first
    | apply Plain.refuse <;> intros <;> rfl
    | apply Plain.bind
    | intro _

def validateArchiveChainID (chainID : String) : Except Err Unit := do
  refuse (chainID = "") (.new "chain ID is required")
  refuse (GoText.trimSpace chainID ≠ chainID)
    (.new s!"unsafe chain ID {quoted chainID}: leading or trailing whitespace")
  refuse (GoText.contains chainID '/' || GoText.contains chainID '\\')
    (.new s!"unsafe chain ID {quoted chainID}: path separators are not allowed")
  wrapping s!"unsafe chain ID {quoted chainID}" (validateObjectKey s!"chains/{chainID}/blocks")

theorem validateArchiveChainID_plain (chainID : String) : Plain (validateArchiveChainID chainID) := by
  unfold validateArchiveChainID
  repeat' first
    | apply Plain.refuse <;> intros <;> rfl
    | apply Plain.wrapping (validateObjectKey_plain _)
    | apply Plain.bind
    | intro _

def defaultPrefix : String := "archive"
def defaultManifest : String := "manifest.json"

def cleanPrefix (keyPrefix : String) : String :=
  let trimmed := GoText.trimChar '/' keyPrefix
  if trimmed = "" then defaultPrefix else trimmed

def chainRoot (keyPrefix chainID : String) : String := cleanPrefix keyPrefix ++ "/chains/" ++ chainID

def segmentKey (keyPrefix chainID : String) (firstHeight lastHeight : Int) (sha256 : Bytes) : String :=
  let shortHash := if 16 < sha256.length then sha256.take 16 else sha256
  chainRoot keyPrefix chainID ++ "/segments/" ++ GoText.decimal12 firstHeight ++ "-" ++ GoText.decimal12 lastHeight ++
    "-" ++ asciiText shortHash ++ ".cba"

def orDefaultManifest (manifestName : String) : String := if manifestName = "" then defaultManifest else manifestName

def manifestKey (keyPrefix chainID manifestName : String) : String :=
  chainRoot keyPrefix chainID ++ "/manifests/" ++ orDefaultManifest manifestName

def stateKey (keyPrefix chainID manifestName : String) : String :=
  chainRoot keyPrefix chainID ++ "/migration/" ++ orDefaultManifest manifestName ++ ".state.json"

def legacyMigrationStateKey (keyPrefix chainID : String) : String :=
  chainRoot keyPrefix chainID ++ "/migration/state.json"

def validateArchiveNamespace (keyPrefix chainID : String) : Except Err Unit := do
  validateArchiveChainID chainID
  wrapping "state key" (validateObjectKey (stateKey keyPrefix chainID defaultManifest))

def resolveKey (label keyPrefix chainID key : String) : Except Err String := do
  -- what `ResolveManifestKey` and `MigrationStateKey` share: the namespace, then the key
  validateArchiveNamespace keyPrefix chainID
  wrapping label (validateObjectKey key)
  return key

def chosenManifestKey (keyPrefix chainID manifestName explicitKey : String) : String :=
  if explicitKey ≠ "" then explicitKey else manifestKey keyPrefix chainID manifestName

def chosenStateKey (keyPrefix chainID manifestName explicitKey : String) : String :=
  if explicitKey ≠ "" then explicitKey ++ ".state.json" else stateKey keyPrefix chainID manifestName

def resolveManifestKey (keyPrefix chainID manifestName explicitKey : String) : Except Err String :=
  resolveKey "manifest key" keyPrefix chainID (chosenManifestKey keyPrefix chainID manifestName explicitKey)

def migrationStateKey (keyPrefix chainID manifestName explicitKey : String) : Except Err String :=
  resolveKey "state key" keyPrefix chainID (chosenStateKey keyPrefix chainID manifestName explicitKey)

theorem resolveKey_spec {label keyPrefix chainID key resolved : String}
    (ok : resolveKey label keyPrefix chainID key = .ok resolved) :
    resolved = key ∧ validateArchiveNamespace keyPrefix chainID = .ok () ∧ validateObjectKey key = .ok () := by
  simp only [resolveKey, then_eq_ok, wrapping_eq_ok] at ok
  obtain ⟨named, valid, same⟩ := ok
  cases same
  exact ⟨rfl, named, valid⟩

theorem append_ne {root left right : String} (differ : left ≠ right) : root ++ left ≠ root ++ right := by
  intro same
  have lists := congrArg String.toList same
  simp only [String.toList_append, List.append_cancel_left_eq] at lists
  exact differ (String.toList_inj.mp lists)

theorem ne_of_head {left right : String} {n : Nat} (differ : left.toList.take n ≠ right.toList.take n) : left ≠ right := by
  rintro rfl
  exact differ rfl

theorem segmentKey_ne_manifestKey (keyPrefix chainID manifestName : String) (firstHeight lastHeight : Int)
    (sha256 : Bytes) :
    segmentKey keyPrefix chainID firstHeight lastHeight sha256 ≠ manifestKey keyPrefix chainID manifestName := by
  unfold segmentKey manifestKey
  simp only [String.append_assoc]
  apply append_ne
  apply ne_of_head (n := 2)
  simp [String.toList_append]

theorem chosenStateKey_ne_chosenManifestKey (keyPrefix chainID manifestName explicitKey : String) :
    chosenStateKey keyPrefix chainID manifestName explicitKey ≠
      chosenManifestKey keyPrefix chainID manifestName explicitKey := by
  unfold chosenStateKey chosenManifestKey
  split
  · intro same
    have lengths := congrArg String.length same
    simp [String.length_append] at lengths
  · unfold stateKey manifestKey
    simp only [String.append_assoc]
    apply append_ne
    apply ne_of_head (n := 3)
    simp [String.toList_append]

theorem legacyMigrationStateKey_ne_manifestKey (keyPrefix chainID manifestName : String) :
    legacyMigrationStateKey keyPrefix chainID ≠ manifestKey keyPrefix chainID manifestName := by
  unfold legacyMigrationStateKey manifestKey
  simp only [String.append_assoc]
  apply append_ne
  apply ne_of_head (n := 3)
  simp [String.toList_append]

end CometArchive.Archive
