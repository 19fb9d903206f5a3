import CometArchive.Archive.Keys
import CometArchive.Shared.Decimal
import CometArchive.Shared.Paths

set_option autoImplicit false

namespace CometArchive.Archive

open GoBytes GoError GoText

-- a path component that names neither the directory it stands in nor the one above
def Component (part : List Char) : Prop := part ≠ [] ∧ part ≠ ['.'] ∧ part ≠ ['.', '.']

def IsKey (key : String) : Prop :=
  ∃ parts : List (List Char), parts ≠ [] ∧ (∀ part ∈ parts, Component part ∧ '/' ∉ part ∧ '\\' ∉ part) ∧
    key.toList = ['/'].intercalate parts

variable {key : String}

theorem isKey_iff : IsKey key ↔ (∀ part ∈ splitSlash key, Component part) ∧ '\\' ∉ key.toList := by
  constructor
  · rintro ⟨parts, filled, good, same⟩
    rw [splitSlash_of_intercalate (fun part among => (good part among).2.1) filled same, same]
    refine ⟨fun part among => (good part among).1, fun member => ?_⟩
    rcases of_mem_intercalate member with slash | ⟨part, among, member⟩
    · exact absurd slash (by decide)
    · exact (good part among).2.2 member
  · rintro ⟨good, plain⟩
    refine ⟨splitSlash key, splitSlash_ne_nil key, fun part among => ⟨good part among, ?_, ?_⟩, ?_⟩
    · exact slash_notMem_of_mem_splitSlash among
    · intro member
      apply plain
      rw [← intercalate_splitSlash key]
      exact mem_intercalate among member
    · exact (intercalate_splitSlash key).symm

namespace IsKey

theorem parts (named : IsKey key) : ∀ part ∈ splitSlash key, Component part := (isKey_iff.mp named).1

theorem ne_nil (named : IsKey key) : key.toList ≠ [] := by
  intro empty
  have parts := named.parts
  rw [splitSlash, empty, List.splitOn_nil] at parts
  exact (parts [] (by simp)).1 rfl

theorem head (named : IsKey key) : ∃ c rest, key.toList = c :: rest ∧ c ≠ '/' := by
  cases shape : key.toList with
  | nil => exact absurd shape named.ne_nil
  | cons c rest =>
    refine ⟨c, rest, rfl, ?_⟩
    rintro rfl
    have parts := named.parts
    rw [splitSlash, shape, List.splitOn_cons_eq_if_modifyHead, if_pos (by simp)] at parts
    exact (parts [] (by simp)).1 rfl

theorem join_iff {left right : String} : IsKey (left ++ "/" ++ right) ↔ IsKey left ∧ IsKey right := by
  have slash : ("/" : String).toList = ['/'] := rfl
  rw [isKey_iff, isKey_iff, isKey_iff, splitSlash_join, List.forall_mem_append, and_and_and_comm]
  simp only [String.toList_append, slash, List.mem_append, List.mem_singleton, Char.reduceEq, or_false, not_or]

theorem of_component {name : String} (good : Component name.toList) (plain : '/' ∉ name.toList)
    (unescaped : '\\' ∉ name.toList) : IsKey name := by
  refine isKey_iff.mpr ⟨?_, unescaped⟩
  rw [splitSlash_of_notMem plain]
  simpa using good

end IsKey

section Clean

theorem foldl_cleanStep {parts : List (List Char)} (good : ∀ part ∈ parts, Component part) (rooted : Bool)
    (stack : List (List Char)) : parts.foldl (cleanStep rooted) stack = parts.reverse ++ stack := by
  induction parts generalizing stack with
  | nil => rfl
  | cons part rest ih =>
    obtain ⟨filled, dot, up⟩ := good part (by simp)
    have step : cleanStep rooted stack part = part :: stack := by simp [cleanStep, filled, dot, up]
    rw [List.foldl_cons, step, ih fun other among => good other (List.mem_cons_of_mem _ among)]
    simp

def cleanParts (value : String) : List (List Char) :=
  -- the components `filepath.Clean` keeps, in order
  ((splitSlash value).foldl (cleanStep (value.toList.head? == some '/')) []).reverse

theorem filepathClean_eq (value : String) :
    filepathClean value =
      if value.toList.head? = some '/' then String.ofList ('/' :: ['/'].intercalate (cleanParts value))
      else if ['/'].intercalate (cleanParts value) = [] then "."
      else String.ofList (['/'].intercalate (cleanParts value)) := by
  by_cases rooted : value.toList.head? = some '/'
  · simp [filepathClean, cleanParts, rooted]
  · simp only [filepathClean, cleanParts, beq_iff_eq, if_neg rooted]
    congr

theorem cleanParts_plain (value : String) : ∀ part ∈ cleanParts value, part ≠ [] ∧ part ≠ ['.'] ∧ '/' ∉ part := by
  have plain : ∀ part ∈ splitSlash value, '/' ∉ part := fun part among => slash_notMem_of_mem_splitSlash among
  simp only [cleanParts, List.mem_reverse]
  generalize (value.toList.head? == some '/') = rooted
  have start : ∀ part ∈ ([] : List (List Char)), part ≠ [] ∧ part ≠ ['.'] ∧ '/' ∉ part := by simp
  generalize ([] : List (List Char)) = stack at start
  generalize splitSlash value = parts at plain
  induction parts generalizing stack with
  | nil => exact start
  | cons first rest ih =>
    refine ih _ ?_ (fun part among => plain part (List.mem_cons_of_mem _ among))
    unfold cleanStep
    split
    · exact start
    next kept =>
      simp only [not_or] at kept
      have both : ∀ part ∈ first :: stack, part ≠ [] ∧ part ≠ ['.'] ∧ '/' ∉ part := by
        intro part among
        rcases List.mem_cons.mp among with rfl | below
        · exact ⟨kept.1, kept.2, plain _ (by simp)⟩
        · exact start part below
      split
      · split
        · split
          · exact start
          · intro part among
            exact both part (by simpa using among)
        · split
          · exact both
          · intro part among
            exact start part (List.mem_cons_of_mem _ among)
      · exact both

theorem intercalate_plain {kept : List (List Char)} (plain : ∀ part ∈ kept, part ≠ [] ∧ part ≠ ['.'] ∧ '/' ∉ part)
    (filled : kept ≠ []) :
    ['/'].intercalate kept ≠ [] ∧ ['/'].intercalate kept ≠ ['.'] ∧ ['/'].intercalate kept ≠ ['/'] := by
  cases kept with
  | nil => exact absurd rfl filled
  | cons first rest =>
    obtain ⟨some, dot, slash⟩ := plain first (by simp)
    cases rest with
    | nil =>
      rw [List.intercalate_singleton]
      refine ⟨some, dot, ?_⟩
      rintro rfl
      exact slash (by simp)
    | cons second others =>
      have long : 1 < (['/'].intercalate (first :: second :: others)).length := by
        have filled := List.length_pos_iff.mpr some
        rw [List.intercalate_cons_cons, List.length_append, List.length_append, List.length_singleton]
        omega
      refine ⟨?_, ?_, ?_⟩
      all_goals
        intro same
        rw [same] at long
        exact absurd long (by decide)

theorem head_join {root : String} (filled : root ≠ "") (key : String) :
    (root ++ "/" ++ key).toList.head? = root.toList.head? := by
  rw [String.toList_append, String.toList_append, List.append_assoc]
  exact List.head?_append_of_ne_nil _ (fun empty => filled (String.toList_eq_nil_iff.mp empty))

theorem cleanParts_join {root : String} (filled : root ≠ "") (named : IsKey key) :
    cleanParts (root ++ "/" ++ key) = cleanParts root ++ splitSlash key := by
  rw [cleanParts, cleanParts, head_join filled, splitSlash_join, List.foldl_append, foldl_cleanStep named.parts]
  simp

theorem cleanParts_key (named : IsKey key) : cleanParts key = splitSlash key := by
  rw [cleanParts, foldl_cleanStep named.parts]
  simp

theorem filepathClean_key (named : IsKey key) : filepathClean key = key := by
  obtain ⟨c, rest, shape, plain⟩ := named.head
  rw [filepathClean_eq, cleanParts_key named, intercalate_splitSlash, if_neg (by simp [shape, plain]),
    if_neg named.ne_nil, String.ofList_toList]

end Clean

theorem validateObjectKey_eq_ok : validateObjectKey key = .ok () ↔ IsKey key := by
  simp only [validateObjectKey, validateObjectPath, then_eq_ok, refuse_eq_ok]
  constructor
  · rintro ⟨-, plain, good, -⟩
    refine isKey_iff.mpr ⟨fun part among => ?_, ?_⟩
    · simp only [Bool.not_eq_true, List.any_eq_false, decide_eq_true_eq, not_or] at good
      exact good part among
    · simpa [contains] using plain
  · intro named
    obtain ⟨c, rest, shape, slash⟩ := named.head
    obtain ⟨good, plain⟩ := isKey_iff.mp named
    have first : splitSlash key ≠ [['.']] ∧ splitSlash key ≠ [['.', '.']] := by
      constructor
      · intro alone
        exact (good ['.'] (by simp [alone])).2.1 rfl
      · intro alone
        exact (good ['.', '.'] (by simp [alone])).2.2 rfl
    rw [filepathClean_key named]
    refine ⟨?_, ?_, ?_, ?_⟩
    · rintro rfl
      exact named.ne_nil rfl
    · simpa [contains] using plain
    · simp only [Bool.not_eq_true, List.any_eq_false, decide_eq_true_eq, not_or]
      exact good
    · rintro (rfl | up | rfl | rooted)
      · exact first.1 rfl
      · have split : key.toList = ['.', '.'] ++ '/' :: key.toList.drop 3 := by
          conv_lhs => rw [← List.take_append_drop 3 key.toList, up]
          rfl
        rw [splitSlash, split, List.splitOn_append_cons_self, List.splitOn_eq_singleton (by decide)] at good
        exact (good ['.', '.'] (by simp)).2.2 rfl
      · exact first.2 rfl
      · rw [shape] at rooted
        exact slash (by simpa using rooted)

section Stores

def filepathJoin (first second : String) : String :=
  if first ≠ "" then filepathClean (first ++ "/" ++ second)
  else if second ≠ "" then filepathClean second
  else ""

def pathForKey (root key : String) : Except Err String := do
  validateObjectKey key
  return filepathJoin root (filepathClean key)

def s3StorePrefix (urlPath : String) : Except Err String := do
  -- the prefix `parseS3StoreURL` reads from the path of the store's URL
  let storePrefix := trimChar '/' (trimPrefix urlPath "/")
  if storePrefix ≠ "" then wrapping "s3 prefix" (validateObjectKey storePrefix)
  return storePrefix

def fullKey (storePrefix key : String) : String :=
  let key := trimLeftChar '/' (filepathClean ("/" ++ key))
  if storePrefix = "" then key
  else if key = "" ∨ key = "." then storePrefix
  else filepathJoin storePrefix key

def prefixWithSlash (storePrefix : String) : String :=
  if storePrefix = "" then "" else trimChar '/' storePrefix ++ "/"

def underRoot (root key : String) : String :=
  if root = "." then key else if root = "/" then "/" ++ key else root ++ "/" ++ key

def pathParts (value : String) : List (List Char) :=
  (splitSlash value).filter fun part => part ≠ [] ∧ part ≠ ['.']

/-- The path goes on from the root, and nowhere up again. -/
def StrictlyBelow (root path : String) : Prop :=
  ∃ rest, rest ≠ [] ∧ (∀ part ∈ rest, Component part) ∧ pathParts path = pathParts root ++ rest

theorem underRoot_dot (key : String) : underRoot "." key = key := if_pos rfl

theorem underRoot_slash (key : String) : underRoot "/" key = "/" ++ key := (if_neg (by decide)).trans (if_pos rfl)

theorem underRoot_of_ne {root : String} (dot : root ≠ ".") (slash : root ≠ "/") (key : String) :
    underRoot root key = root ++ "/" ++ key := (if_neg dot).trans (if_neg slash)

theorem underRoot_inj {root left right : String} (same : underRoot root left = underRoot root right) : left = right := by
  unfold underRoot at same
  have lists := congrArg String.toList same
  split at lists
  · exact String.toList_inj.mp lists
  · apply String.toList_inj.mp
    split at lists <;> simpa [String.toList_append] using lists

theorem pathParts_key (named : IsKey key) : pathParts key = splitSlash key := by
  rw [pathParts, List.filter_eq_self]
  intro part among
  have good := named.parts part among
  simp [good.1, good.2.1]

theorem pathParts_underRoot (root : String) (named : IsKey key) :
    pathParts (underRoot root key) = pathParts root ++ splitSlash key := by
  have parts := pathParts_key named
  have joined : ∀ first : String, pathParts (first ++ "/" ++ key) = pathParts first ++ splitSlash key := by
    intro first
    rw [← parts, pathParts, splitSlash_join, List.filter_append]
    rfl
  by_cases dot : root = "."
  · rw [dot, underRoot_dot, parts]
    rfl
  · by_cases slash : root = "/"
    · rw [slash, underRoot_slash]
      exact joined ""
    · rw [underRoot_of_ne dot slash]
      exact joined root

theorem strictlyBelow_underRoot (root : String) (named : IsKey key) : StrictlyBelow root (underRoot root key) :=
  ⟨splitSlash key, splitSlash_ne_nil key, named.parts, pathParts_underRoot root named⟩

theorem filepathJoin_key (root : String) (named : IsKey key) :
    filepathJoin root key = underRoot (filepathClean root) key := by
  by_cases empty : root = ""
  · -- `Join` leaves the empty root out, and it is cleaned to a dot
    subst empty
    have filled : key ≠ "" := by
      rintro rfl
      exact named.ne_nil rfl
    have dot : filepathClean "" = "." := by decide +kernel
    rw [filepathJoin, if_neg (by simp), if_pos filled, filepathClean_key named, dot, underRoot_dot]
  · have plain := cleanParts_plain root
    rw [filepathJoin, if_pos empty, filepathClean_eq (root ++ "/" ++ key), filepathClean_eq root, head_join empty,
      cleanParts_join empty named]
    generalize cleanParts root = kept at plain
    by_cases none : kept = []
    · -- the root is cleaned to a slash or to a dot
      rw [none, List.nil_append, intercalate_splitSlash, List.intercalate_nil]
      split
      · have slash : String.ofList ['/'] = "/" := rfl
        rw [slash, underRoot_slash]
        simp
      · rw [if_neg named.ne_nil, if_pos rfl, String.ofList_toList, underRoot_dot]
    · obtain ⟨some, dot, slash⟩ := intercalate_plain plain none
      rw [intercalate_append none (splitSlash_ne_nil key), intercalate_splitSlash]
      generalize ['/'].intercalate kept = body at some dot slash
      split
      · rw [underRoot_of_ne]
        · simp [← String.toList_inj]
        · simp [← String.toList_inj]
        · simp [← String.toList_inj, some]
      · rw [if_neg (List.append_ne_nil_of_left_ne_nil some _), underRoot_of_ne]
        · simp [← String.toList_inj]
        · simp [← String.toList_inj, dot]
        · simp [← String.toList_inj, slash]

theorem pathForKey_eq_ok {root path : String} :
    pathForKey root key = .ok path ↔ IsKey key ∧ path = underRoot (filepathClean root) key := by
  simp only [pathForKey, then_eq_ok, validateObjectKey_eq_ok]
  constructor
  · rintro ⟨named, same⟩
    cases same
    rw [filepathClean_key named, filepathJoin_key root named]
    exact ⟨named, rfl⟩
  · rintro ⟨named, rfl⟩
    rw [filepathClean_key named, filepathJoin_key root named]
    exact ⟨named, rfl⟩

theorem filepathClean_rooted_key (named : IsKey key) : filepathClean ("/" ++ key) = "/" ++ key := by
  have joined : "/" ++ key = "" ++ "/" ++ key := by rw [String.empty_append]
  have parts : cleanParts ("/" ++ key) = splitSlash key := by
    rw [cleanParts, joined, splitSlash_join, List.foldl_append, foldl_cleanStep named.parts]
    have dropped : ∀ rooted, (splitSlash "").foldl (cleanStep rooted) [] = [] := by decide
    simp [dropped]
  rw [filepathClean_eq, parts, intercalate_splitSlash, if_pos (by simp [String.toList_append])]
  simp

theorem trimLeftChar_rooted_key (named : IsKey key) : trimLeftChar '/' ("/" ++ key) = key := by
  obtain ⟨c, rest, shape, plain⟩ := named.head
  simp [trimLeftChar, String.toList_append, shape, plain, ← String.toList_inj]

theorem IsKey.last (named : IsKey key) : ∃ c rest, key.toList.reverse = c :: rest ∧ c ≠ '/' := by
  cases shape : key.toList.reverse with
  | nil => exact absurd (List.reverse_eq_nil_iff.mp shape) named.ne_nil
  | cons c rest =>
    refine ⟨c, rest, rfl, ?_⟩
    rintro rfl
    have parts := named.parts
    have split : key.toList = rest.reverse ++ '/' :: [] := by
      rw [← List.reverse_reverse key.toList, shape, List.reverse_cons]
    rw [splitSlash, split, List.splitOn_append_cons_self] at parts
    exact (parts [] (by simp)).1 rfl

theorem trimChar_key (named : IsKey key) : trimChar '/' key = key := by
  obtain ⟨c, rest, shape, plain⟩ := named.head
  obtain ⟨d, others, reversed, unslashed⟩ := named.last
  have front : key.toList.dropWhile (· == '/') = key.toList := by simp [shape, plain]
  have back : key.toList.reverse.dropWhile (· == '/') = key.toList.reverse := by simp [reversed, unslashed]
  rw [trimChar, trimBoth, front, back, List.reverse_reverse, String.ofList_toList]

theorem s3StorePrefix_spec {urlPath storePrefix : String} (ok : s3StorePrefix urlPath = .ok storePrefix) :
    storePrefix = "" ∨ IsKey storePrefix := by
  unfold s3StorePrefix at ok
  dsimp only at ok
  split at ok
  · simp only [then_eq_ok, wrapping_eq_ok, validateObjectKey_eq_ok] at ok
    obtain ⟨named, same⟩ := ok
    cases same
    exact .inr named
  next empty =>
    have same := Except.ok.inj ok
    exact .inl (same.symm.trans (not_not.mp empty))

theorem fullKey_eq {storePrefix : String} (known : storePrefix = "" ∨ IsKey storePrefix) (named : IsKey key) :
    fullKey storePrefix key = prefixWithSlash storePrefix ++ key := by
  rw [fullKey, filepathClean_rooted_key named, trimLeftChar_rooted_key named]
  rcases known with rfl | store
  · simp [prefixWithSlash]
  · have filled : storePrefix ≠ "" := by
      rintro rfl
      exact store.ne_nil rfl
    have whole : ¬(key = "" ∨ key = ".") := by
      rintro (rfl | rfl)
      · exact named.ne_nil rfl
      · exact (named.parts ['.'] (by decide)).2.1 rfl
    have both : IsKey (storePrefix ++ "/" ++ key) := IsKey.join_iff.mpr ⟨store, named⟩
    rw [if_neg filled, if_neg whole, filepathJoin, if_pos filled, filepathClean_key both, prefixWithSlash,
      if_neg filled, trimChar_key store]

end Stores

section ArchiveKeys

variable {keyPrefix chainID : String}

theorem chainRoot_isKey (ok : validateArchiveNamespace keyPrefix chainID = .ok ()) : IsKey (chainRoot keyPrefix chainID) := by
  simp only [validateArchiveNamespace, then_eq_ok, wrapping_eq_ok, validateObjectKey_eq_ok] at ok
  have below : stateKey keyPrefix chainID defaultManifest =
      chainRoot keyPrefix chainID ++ "/" ++ "migration/manifest.json.state.json" := by
    have name : orDefaultManifest defaultManifest = defaultManifest := by decide
    rw [stateKey, name, String.append_assoc, String.append_assoc, String.append_assoc]
    rfl
  rw [below, IsKey.join_iff] at ok
  exact ok.2.1

def segmentName (firstHeight lastHeight : Int) (sha256 : Bytes) : String :=
  decimal12 firstHeight ++ "-" ++ decimal12 lastHeight ++ "-" ++
    asciiText (if 16 < sha256.length then sha256.take 16 else sha256) ++ ".cba"

theorem segmentKey_eq (keyPrefix chainID : String) (firstHeight lastHeight : Int) (sha256 : Bytes) :
    segmentKey keyPrefix chainID firstHeight lastHeight sha256 =
      chainRoot keyPrefix chainID ++ "/" ++ ("segments" ++ "/" ++ segmentName firstHeight lastHeight sha256) := by
  have dir : ("/segments/" : String) = "/" ++ "segments" ++ "/" := rfl
  simp only [segmentKey, segmentName, dir, String.append_assoc]

def Ordinary (c : Char) : Prop := c ≠ '/' ∧ c ≠ '\\'

theorem isDigit_ne {c : Char} (digit : c.isDigit = true) : Ordinary c ∧ c ≠ '-' ∧ c ≠ '.' := by
  have bounds := toNat_of_isDigit digit
  refine ⟨⟨?_, ?_⟩, ?_, ?_⟩
  all_goals
    rintro rfl
    exact absurd bounds (by decide)

theorem ordinary_of_isHexDigit {byte : UInt8} (digit : isHexDigit byte = true) : Ordinary (Char.ofNat byte.toNat) := by
  have all : ∀ n < 256, isHexDigit (UInt8.ofNat n) = true → Char.ofNat n ≠ '/' ∧ Char.ofNat n ≠ '\\' := by decide +kernel
  exact all byte.toNat byte.toNat_lt (by rwa [UInt8.ofNat_toNat])

variable {firstHeight lastHeight : Int} {sha256 : Bytes}

theorem toList_segmentName (firstHeight lastHeight : Int) (sha256 : Bytes) :
    (segmentName firstHeight lastHeight sha256).toList =
      (decimal12 firstHeight).toList ++ '-' :: ((decimal12 lastHeight).toList ++
        '-' :: ((if 16 < sha256.length then sha256.take 16 else sha256).map (fun byte => Char.ofNat byte.toNat) ++
          ".cba".toList)) := by
  simp [segmentName, asciiText, String.toList_append]

theorem segmentName_isKey (first : 0 < firstHeight) (last : 0 < lastHeight) (hex : isHex sha256 = true) :
    IsKey (segmentName firstHeight lastHeight sha256) := by
  have firstDigits := decimal12_isDigit first.le
  have chars : ∀ c ∈ (segmentName firstHeight lastHeight sha256).toList, Ordinary c := by
    intro c member
    simp only [toList_segmentName, List.mem_append, List.mem_cons, List.mem_map] at member
    rcases member with digit | rfl | digit | rfl | ⟨byte, among, rfl⟩ | suffix
    · exact (isDigit_ne (firstDigits c digit)).1
    · exact ⟨by decide, by decide⟩
    · exact (isDigit_ne (decimal12_isDigit last.le c digit)).1
    · exact ⟨by decide, by decide⟩
    · apply ordinary_of_isHexDigit
      simp only [isHex, Bool.and_eq_true, List.all_eq_true] at hex
      split at among
      · exact hex.2 byte (List.mem_of_mem_take among)
      · exact hex.2 byte among
    · have all : ∀ c ∈ ".cba".toList, c ≠ '/' ∧ c ≠ '\\' := by simp
      exact all c suffix
  apply IsKey.of_component
  · -- the first character is a digit
    have shape := toList_segmentName firstHeight lastHeight sha256
    cases digits : (decimal12 firstHeight).toList with
    | nil =>
      have filled := congrArg List.length (toList_decimal12 first.le)
      have some := List.length_pos_iff.mpr (Nat.toDigits_ne_nil (n := firstHeight.natAbs) (b := 10))
      rw [digits, List.length_append, List.length_nil] at filled
      omega
    | cons c rest =>
      have dot := (isDigit_ne (firstDigits c (by simp [digits]))).2.2
      rw [digits, List.cons_append] at shape
      rw [shape]
      exact ⟨by simp, by simp [dot], by simp [dot]⟩
  · exact fun slash => (chars _ slash).1 rfl
  · exact fun backslash => (chars _ backslash).2 rfl

theorem append_cons_cancel {α : Type} {sep : α} {left right after after' : List α} (plain : sep ∉ left)
    (plain' : sep ∉ right) (same : left ++ sep :: after = right ++ sep :: after') : left = right ∧ after = after' := by
  induction left generalizing right with
  | nil =>
    cases right with
    | nil => simpa using same
    | cons c rest =>
      rw [List.nil_append, List.cons_append, List.cons.injEq] at same
      exact absurd (by simp [same.1]) plain'
  | cons c rest ih =>
    cases right with
    | nil =>
      rw [List.nil_append, List.cons_append, List.cons.injEq] at same
      exact absurd (by simp [same.1]) plain
    | cons d others =>
      rw [List.cons_append, List.cons_append, List.cons.injEq] at same
      obtain ⟨rfl, tails⟩ := same
      obtain ⟨rfl, ends⟩ := ih (fun member => plain (List.mem_cons_of_mem _ member))
        (fun member => plain' (List.mem_cons_of_mem _ member)) tails
      exact ⟨rfl, ends⟩

theorem segmentName_heights {firstHeight' lastHeight' : Int} {sha256' : Bytes} (first : 0 < firstHeight)
    (last : 0 < lastHeight) (first' : 0 < firstHeight') (last' : 0 < lastHeight')
    (same : segmentName firstHeight lastHeight sha256 = segmentName firstHeight' lastHeight' sha256') :
    firstHeight = firstHeight' ∧ lastHeight = lastHeight' := by
  have plain : ∀ {height : Int}, 0 < height → '-' ∉ (decimal12 height).toList := by
    intro height positive member
    exact (isDigit_ne (decimal12_isDigit positive.le _ member)).2.1 rfl
  have lists := congrArg String.toList same
  rw [toList_segmentName, toList_segmentName] at lists
  obtain ⟨firsts, rest⟩ := append_cons_cancel (plain first) (plain first') lists
  obtain ⟨lasts, -⟩ := append_cons_cancel (plain last) (plain last') rest
  exact ⟨decimal12_inj first.le first'.le (String.toList_inj.mp firsts),
    decimal12_inj last.le last'.le (String.toList_inj.mp lasts)⟩

theorem segmentKey_ne_migration (keyPrefix chainID : String) (firstHeight lastHeight : Int) (sha256 : Bytes)
    (name : String) :
    segmentKey keyPrefix chainID firstHeight lastHeight sha256 ≠ chainRoot keyPrefix chainID ++ "/migration/" ++ name := by
  unfold segmentKey
  simp only [String.append_assoc]
  apply append_ne
  apply ne_of_head (n := 2)
  simp [String.toList_append]

structure ArchiveKeys (keyPrefix chainID manifest state : String) : Prop where
  -- the keys of one chain's archive are accepted and apart from each other
  accepted : validateObjectKey manifest = .ok () ∧ validateObjectKey state = .ok () ∧
    validateObjectKey (legacyMigrationStateKey keyPrefix chainID) = .ok ()
  apart : manifest ≠ state ∧ manifest ≠ legacyMigrationStateKey keyPrefix chainID ∧
    state ≠ legacyMigrationStateKey keyPrefix chainID
  segments : ∀ firstHeight lastHeight sha256, 0 < firstHeight → 0 < lastHeight → isHex sha256 = true →
    validateObjectKey (segmentKey keyPrefix chainID firstHeight lastHeight sha256) = .ok () ∧
      segmentKey keyPrefix chainID firstHeight lastHeight sha256 ≠ manifest ∧
      segmentKey keyPrefix chainID firstHeight lastHeight sha256 ≠ state ∧
      segmentKey keyPrefix chainID firstHeight lastHeight sha256 ≠ legacyMigrationStateKey keyPrefix chainID
  ranges : ∀ first last first' last' sha256 sha256', 0 < first → 0 < last → 0 < first' → 0 < last' →
    (first, last) ≠ (first', last') →
    segmentKey keyPrefix chainID first last sha256 ≠ segmentKey keyPrefix chainID first' last' sha256'

theorem archiveKeys {manifestName manifest state : String}
    (named : resolveManifestKey keyPrefix chainID manifestName "" = .ok manifest)
    (kept : migrationStateKey keyPrefix chainID manifestName "" = .ok state) :
    ArchiveKeys keyPrefix chainID manifest state := by
  obtain ⟨rfl, namespaced, manifestOk⟩ := resolveKey_spec named
  obtain ⟨rfl, -, stateOk⟩ := resolveKey_spec kept
  have root := chainRoot_isKey namespaced
  refine ⟨⟨manifestOk, stateOk, ?_⟩, ⟨?_, ?_, ?_⟩, ?_, ?_⟩
  · rw [validateObjectKey_eq_ok]
    have below : legacyMigrationStateKey keyPrefix chainID = chainRoot keyPrefix chainID ++ "/" ++ "migration/state.json" := by
      rw [legacyMigrationStateKey, String.append_assoc]
      rfl
    rw [below, IsKey.join_iff]
    exact ⟨root, validateObjectKey_eq_ok.mp (by decide +kernel)⟩
  · exact (chosenStateKey_ne_chosenManifestKey keyPrefix chainID manifestName "").symm
  · exact (legacyMigrationStateKey_ne_manifestKey keyPrefix chainID manifestName).symm
  · -- the state of a named manifest has the longer name
    intro same
    have lengths := congrArg String.length same
    have dir : "/migration/".length = 11 := by decide
    have ending : ".state.json".length = 11 := by decide
    have legacy : "/migration/state.json".length = 21 := by decide
    simp [chosenStateKey, stateKey, legacyMigrationStateKey, String.length_append, dir, ending, legacy] at lengths
    omega
  · intro firstHeight lastHeight sha256 first last hex
    refine ⟨?_, segmentKey_ne_manifestKey keyPrefix chainID manifestName _ _ _, ?_, ?_⟩
    · rw [validateObjectKey_eq_ok, segmentKey_eq, IsKey.join_iff, IsKey.join_iff]
      exact ⟨root, validateObjectKey_eq_ok.mp (by decide +kernel), segmentName_isKey first last hex⟩
    · have below : chosenStateKey keyPrefix chainID manifestName "" =
          chainRoot keyPrefix chainID ++ "/migration/" ++ (orDefaultManifest manifestName ++ ".state.json") :=
        String.append_assoc ..
      rw [below]
      apply segmentKey_ne_migration
    · have below : legacyMigrationStateKey keyPrefix chainID =
          chainRoot keyPrefix chainID ++ "/migration/" ++ "state.json" := by
        rw [legacyMigrationStateKey, String.append_assoc]
        rfl
      rw [below]
      apply segmentKey_ne_migration
  · intro first last first' last' sha256 sha256' firstPos lastPos firstPos' lastPos' differ same
    rw [segmentKey_eq, segmentKey_eq] at same
    have lists := congrArg String.toList same
    simp only [String.toList_append, List.append_cancel_left_eq] at lists
    obtain ⟨rfl, rfl⟩ := segmentName_heights firstPos lastPos firstPos' lastPos' (String.toList_inj.mp lists)
    exact differ rfl

end ArchiveKeys

/-- Keys are confined and unaliased: in a local store, in an S3 store and within one archive. -/
theorem object_keys_confined :
    (∀ key, validateObjectKey key = .ok () ↔ IsKey key) ∧
    (∀ root key path, pathForKey root key = .ok path ↔ IsKey key ∧ path = underRoot (filepathClean root) key) ∧
    (∀ root key path, pathForKey root key = .ok path → StrictlyBelow (filepathClean root) path) ∧
    (∀ root key key' path, pathForKey root key = .ok path → pathForKey root key' = .ok path → key = key') ∧
    (∀ urlPath storePrefix key, s3StorePrefix urlPath = .ok storePrefix → validateObjectKey key = .ok () →
      fullKey storePrefix key = (if storePrefix = "" then key else storePrefix ++ "/" ++ key) ∧
      trimPrefix (fullKey storePrefix key) (prefixWithSlash storePrefix) = key) ∧
    (∀ urlPath storePrefix key key', s3StorePrefix urlPath = .ok storePrefix → validateObjectKey key = .ok () →
      validateObjectKey key' = .ok () → fullKey storePrefix key = fullKey storePrefix key' → key = key') ∧
    ∀ keyPrefix chainID manifestName manifest state,
      resolveManifestKey keyPrefix chainID manifestName "" = .ok manifest →
      migrationStateKey keyPrefix chainID manifestName "" = .ok state → ArchiveKeys keyPrefix chainID manifest state := by
  have stripped : ∀ {urlPath storePrefix key}, s3StorePrefix urlPath = .ok storePrefix →
      validateObjectKey key = .ok () → trimPrefix (fullKey storePrefix key) (prefixWithSlash storePrefix) = key := by
    intro urlPath storePrefix key parsed named
    rw [fullKey_eq (s3StorePrefix_spec parsed) (validateObjectKey_eq_ok.mp named), trimPrefix_append]
  refine ⟨fun key => validateObjectKey_eq_ok, fun root key path => pathForKey_eq_ok, ?_, ?_, ?_, ?_, ?_⟩
  · intro root key path ok
    obtain ⟨named, rfl⟩ := pathForKey_eq_ok.mp ok
    exact strictlyBelow_underRoot _ named
  · intro root key key' path ok ok'
    obtain ⟨-, rfl⟩ := pathForKey_eq_ok.mp ok
    exact underRoot_inj (pathForKey_eq_ok.mp ok').2
  · intro urlPath storePrefix key parsed named
    refine ⟨?_, stripped parsed named⟩
    have known := s3StorePrefix_spec parsed
    rw [fullKey_eq known (validateObjectKey_eq_ok.mp named), prefixWithSlash]
    split
    · exact String.empty_append
    next filled => rw [trimChar_key (known.resolve_left filled)]
  · intro urlPath storePrefix key key' parsed named named' same
    rw [← stripped parsed named, same, stripped parsed named']
  · intro keyPrefix chainID manifestName manifest state named kept
    exact archiveKeys named kept

theorem object_keys_confined_sample :
    StrictlyBelow (filepathClean "/data/../store/") "/store/archive/chains/c/manifests/m" ∧
      trimPrefix (fullKey "bucket/dir" "a/b") (prefixWithSlash "bucket/dir") = "a/b" ∧
      ArchiveKeys "" "c" "archive/chains/c/manifests/a/b" "archive/chains/c/migration/a/b.state.json" := by
  obtain ⟨-, -, below, -, full, -, keys⟩ := object_keys_confined
  refine ⟨below "/data/../store/" "archive/chains/c/manifests/m" _ (by decide +kernel), ?_, ?_⟩
  · exact (full "/bucket/dir/" "bucket/dir" "a/b" (by decide +kernel) (by decide +kernel)).2
  · exact keys "" "c" "a/b" _ _ (by decide +kernel) (by decide +kernel)

end CometArchive.Archive
