import CometArchive.Archive.LocalSharing

set_option autoImplicit false

namespace CometArchive.Archive

open GoBytes GoError GoText Files

section Paths

def isRooted (value : String) : Bool := value.toList.head? == some '/'

-- cleaning the parts again changes nothing
def Reduced (rooted : Bool) (parts : List (List Char)) : Prop := parts.foldl (cleanStep rooted) [] = parts.reverse

variable {rooted : Bool} {parts : List (List Char)} {path : String}

theorem cleanStep_cases (rooted : Bool) (stack : List (List Char)) (part : List Char) :
    cleanStep rooted stack part = stack ∨ cleanStep rooted stack part = part :: stack ∨
      ∃ top, stack = top :: cleanStep rooted stack part := by
  -- a step leaves the part out, keeps it, or takes the one before it back
  unfold cleanStep
  split
  · exact .inl rfl
  · split
    · cases stack with
      | nil =>
        dsimp only
        split
        · exact .inl rfl
        · exact .inr (.inl rfl)
      | cons top rest =>
        dsimp only
        split
        · exact .inr (.inl rfl)
        · exact .inr (.inr ⟨top, rfl⟩)
    · exact .inr (.inl rfl)

theorem length_foldl_cleanStep_le (rooted : Bool) (parts stack : List (List Char)) :
    (parts.foldl (cleanStep rooted) stack).length ≤ parts.length + stack.length := by
  induction parts generalizing stack with
  | nil => simp
  | cons part rest ih =>
    have more := ih (cleanStep rooted stack part)
    have step : (cleanStep rooted stack part).length ≤ stack.length + 1 := by
      rcases cleanStep_cases rooted stack part with same | pushed | ⟨top, popped⟩
      · rw [same]
        omega
      · rw [pushed, List.length_cons]
      · have length := congrArg List.length popped
        rw [List.length_cons] at length
        omega
    simp only [List.foldl_cons, List.length_cons]
    omega

theorem Reduced.dropLast (reduced : Reduced rooted parts) : Reduced rooted parts.dropLast := by
  cases parts using List.reverseRecOn with
  | nil => exact reduced
  | append_singleton init last =>
    rw [List.dropLast_concat]
    unfold Reduced at reduced ⊢
    rw [List.foldl_concat, List.reverse_concat] at reduced
    have short := length_foldl_cleanStep_le rooted init []
    rcases cleanStep_cases rooted (init.foldl (cleanStep rooted) []) last with same | pushed | ⟨top, popped⟩
    · -- the parts before are too few
      rw [← same, reduced] at short
      simp at short
    · rw [pushed] at reduced
      exact (List.cons.inj reduced).2
    · rw [popped, reduced] at short
      simp only [List.length_cons, List.length_reverse, List.length_nil] at short
      omega

theorem reduced_foldl (rooted : Bool) (parts stack : List (List Char)) (start : Reduced rooted stack.reverse) :
    Reduced rooted (parts.foldl (cleanStep rooted) stack).reverse := by
  induction parts generalizing stack with
  | nil => exact start
  | cons part rest ih =>
    refine ih _ ?_
    rcases cleanStep_cases rooted stack part with same | pushed | ⟨top, popped⟩
    · rwa [same]
    · unfold Reduced at start ⊢
      rw [List.reverse_reverse] at start
      rw [pushed, List.reverse_cons, List.foldl_concat, start, pushed, List.reverse_concat, List.reverse_reverse]
    · have shorter := start.dropLast
      rwa [popped, List.reverse_cons, List.dropLast_concat] at shorter

theorem foldl_cleanStep_filter (rooted : Bool) (parts stack : List (List Char)) :
    (parts.filter fun part => part ≠ [] ∧ part ≠ ['.']).foldl (cleanStep rooted) stack =
      parts.foldl (cleanStep rooted) stack := by
  induction parts generalizing stack with
  | nil => rfl
  | cons part rest ih =>
    by_cases kept : part ≠ [] ∧ part ≠ ['.']
    · rw [List.filter_cons_of_pos (by simpa using kept), List.foldl_cons, List.foldl_cons, ih]
    · have ignored : cleanStep rooted stack part = stack := by
        unfold cleanStep
        exact if_pos (by tauto)
      rw [List.filter_cons_of_neg (by simpa using kept), List.foldl_cons, ignored, ih]

theorem cleanParts_eq (value : String) :
    cleanParts value = ((pathParts value).foldl (cleanStep (isRooted value)) []).reverse := by
  rw [pathParts, foldl_cleanStep_filter]
  rfl

theorem reduced_cleanParts (value : String) : Reduced (isRooted value) (cleanParts value) := reduced_foldl _ _ [] rfl

theorem splitSlash_clean {value : String} (filled : cleanParts value ≠ []) :
    splitSlash (filepathClean value) = (if isRooted value then [[]] else []) ++ cleanParts value := by
  have plain : ∀ part ∈ cleanParts value, '/' ∉ part := fun part among => (cleanParts_plain value part among).2.2
  have nonempty := (intercalate_plain (cleanParts_plain value) filled).1
  rw [filepathClean_eq]
  by_cases rooted : value.toList.head? = some '/'
  · rw [if_pos rooted, if_pos (by simp [isRooted, rooted]), splitSlash, String.toList_ofList,
      List.splitOn_cons_eq_if_modifyHead, if_pos (by simp), List.splitOn_intercalate '/' plain filled]
    rfl
  · rw [if_neg rooted, if_neg nonempty, if_neg (by simp [isRooted, rooted]), List.nil_append]
    exact splitSlash_of_intercalate plain filled String.toList_ofList

theorem filepathClean_of_empty {value : String} (empty : cleanParts value = []) :
    filepathClean value = if isRooted value then "/" else "." := by
  rw [filepathClean_eq, empty]
  by_cases rooted : value.toList.head? = some '/'
  · rw [if_pos rooted, if_pos (by simp [isRooted, rooted])]
    rfl
  · rw [if_neg rooted, List.intercalate_nil, if_pos rfl, if_neg (by simp [isRooted, rooted])]

theorem isRooted_iff (value : String) : isRooted value = true ↔ ∃ rest, rest ≠ [] ∧ splitSlash value = [] :: rest := by
  -- a path is rooted if the first of its parts is empty and others follow
  unfold isRooted splitSlash
  cases shape : value.toList with
  | nil => simp
  | cons c rest =>
    rw [List.splitOn_cons_eq_if_modifyHead]
    by_cases slash : c = '/'
    · simp [slash, List.splitOn_ne_nil]
    · cases more : rest.splitOn '/' with
      | nil => exact absurd more (List.splitOn_ne_nil _ _)
      | cons first others => simp [slash]

theorem filter_plain (plain : ∀ part ∈ parts, part ≠ [] ∧ part ≠ ['.'] ∧ '/' ∉ part) :
    parts.filter (fun part => part ≠ [] ∧ part ≠ ['.']) = parts := by
  rw [List.filter_eq_self]
  intro part among
  simpa using ⟨(plain part among).1, (plain part among).2.1⟩

theorem pathParts_clean (value : String) : pathParts (filepathClean value) = cleanParts value := by
  by_cases filled : cleanParts value = []
  · rw [filepathClean_of_empty filled, filled]
    split <;> rfl
  · rw [pathParts, splitSlash_clean filled, List.filter_append, filter_plain (cleanParts_plain value)]
    split <;> simp

theorem isRooted_clean (value : String) : isRooted (filepathClean value) = isRooted value := by
  by_cases filled : cleanParts value = []
  · rw [filepathClean_of_empty filled]
    split
    next rooted => rw [rooted]; rfl
    next relative => rw [Bool.not_eq_true] at relative; rw [relative]; rfl
  · rw [Bool.eq_iff_iff, isRooted_iff, splitSlash_clean filled]
    split
    next rooted => simpa [rooted] using filled
    next relative =>
      refine iff_of_false ?_ (by simp [relative])
      rintro ⟨rest, -, split⟩
      exact (cleanParts_plain value [] (by rw [List.nil_append] at split; simp [split])).1 rfl

theorem cleanParts_clean (value : String) : cleanParts (filepathClean value) = cleanParts value := by
  rw [cleanParts_eq, pathParts_clean, isRooted_clean, reduced_cleanParts, List.reverse_reverse]

def throughSlash (path : String) : String := String.ofList (path.toList.reverse.dropWhile (· ≠ '/')).reverse

theorem splitSlash_throughSlash (path : String) :
    ∃ init last, splitSlash path = init ++ [last] ∧ splitSlash (throughSlash path) = init ++ [[]] := by
  have whole := List.takeWhile_append_dropWhile (p := (· ≠ '/')) (l := path.toList.reverse)
  have plain : '/' ∉ path.toList.reverse.takeWhile (· ≠ '/') := fun slash => by
    simpa using List.all_eq_true.mp (List.all_takeWhile (p := (· ≠ '/'))) _ slash
  have stops := List.head?_dropWhile_not (· ≠ '/') path.toList.reverse
  unfold throughSlash splitSlash
  rw [String.toList_ofList]
  generalize path.toList.reverse.takeWhile (· ≠ '/') = after at whole plain
  generalize path.toList.reverse.dropWhile (· ≠ '/') = before at whole stops
  rw [← List.reverse_eq_iff, List.reverse_append] at whole
  rw [← whole]
  cases before with
  | nil =>
    rw [List.reverse_nil, List.nil_append, List.splitOn_eq_singleton (by simpa using plain)]
    exact ⟨[], _, rfl, rfl⟩
  | cons c before =>
    obtain rfl : c = '/' := by simpa using stops
    have alone : after.reverse.splitOn '/' = [after.reverse] := List.splitOn_eq_singleton (by simpa using plain)
    rw [List.reverse_cons, List.append_assoc, List.singleton_append, List.splitOn_append_cons_self, alone,
      List.splitOn_append_cons_self]
    exact ⟨_, _, rfl, rfl⟩

theorem isRooted_throughSlash (path : String) : isRooted (throughSlash path) = isRooted path := by
  obtain ⟨init, last, split, cut⟩ := splitSlash_throughSlash path
  rw [Bool.eq_iff_iff, isRooted_iff, isRooted_iff, split, cut]
  cases init with
  | nil => simp
  | cons first rest => simp

theorem pathParts_dir (value : String) : pathParts (filepathDir (filepathClean value)) = (cleanParts value).dropLast := by
  have front : pathParts (throughSlash (filepathClean value)) = (cleanParts value).dropLast := by
    obtain ⟨init, last, split, cut⟩ := splitSlash_throughSlash (filepathClean value)
    rw [pathParts, cut]
    by_cases filled : cleanParts value = []
    · have none := pathParts_clean value
      rw [pathParts, split, filled, List.filter_append, List.append_eq_nil_iff] at none
      rw [filled, List.filter_append, none.1]
      rfl
    · have parts := (List.dropLast_append_getLast filled).symm
      have plain := cleanParts_plain value
      rw [splitSlash_clean filled, parts, ← List.append_assoc] at split
      rw [← (List.append_inj' split rfl).1, List.filter_append, List.filter_append,
        filter_plain fun part among => plain part (List.dropLast_subset _ among)]
      split <;> simp
  change pathParts (filepathClean (throughSlash _)) = _
  rw [pathParts_clean, cleanParts_eq, front, isRooted_throughSlash, isRooted_clean, (reduced_cleanParts value).dropLast,
    List.reverse_reverse]

theorem pathParts_dirs (value : String) (n : Nat) :
    ∃ other, filepathDir^[n] (filepathClean value) = filepathClean other ∧ cleanParts other <+: cleanParts value := by
  induction n with
  | zero => exact ⟨value, rfl, List.prefix_rfl⟩
  | succ n ih =>
    obtain ⟨other, same, shorter⟩ := ih
    refine ⟨throughSlash (filepathClean other), ?_, ?_⟩
    · rw [Function.iterate_succ_apply', same]
      rfl
    · have parts := pathParts_dir other
      change pathParts (filepathClean (throughSlash _)) = _ at parts
      rw [pathParts_clean] at parts
      rw [parts]
      exact (List.dropLast_prefix _).trans shorter

theorem filepathJoin_clean (root : String) {key : String} (named : IsKey key) :
    ∃ value, filepathJoin root key = filepathClean value := by
  have filled : key ≠ "" := by
    rintro rfl
    exact named.ne_nil rfl
  unfold filepathJoin
  rw [if_pos filled]
  split
  · exact ⟨_, rfl⟩
  · exact ⟨key, rfl⟩

theorem pathParts_join (root : String) {key : String} (named : IsKey key) :
    pathParts (filepathJoin root key) = cleanParts root ++ splitSlash key := by
  rw [filepathJoin_key root named, pathParts_underRoot _ named, pathParts_clean]

theorem temporaryName_parts {dir lead name : String} (among : lead ∈ temporaryLeads) (named : temporaryName dir lead name) :
    ∃ rest last, pathParts name = rest ++ [last] ∧ ".put-".toList <+: last := by
  obtain ⟨random, digits, same⟩ := named
  have leads : ".put-".toList <+: lead.toList ∧ '/' ∉ lead.toList := by
    simp only [temporaryLeads, List.mem_cons, List.not_mem_nil, or_false] at among
    rcases among with rfl | rfl <;> decide
  have started := leads.1.trans (List.prefix_append lead.toList random.toList)
  have plain : '/' ∉ lead.toList ++ random.toList := by
    rw [List.mem_append, not_or]
    exact ⟨leads.2, fun slash => (isDigit_ne (digits _ slash)).1.1 rfl⟩
  obtain ⟨before, whole⟩ : ∃ before, name.toList = before ++ '/' :: (lead.toList ++ random.toList) := by
    rw [same]
    split
    next ends =>
      obtain ⟨before, shape⟩ := List.getLast?_eq_some_iff.mp ends
      exact ⟨before, by simp [String.toList_append, shape]⟩
    next => exact ⟨dir.toList, by simp [String.toList_append]⟩
  generalize lead.toList ++ random.toList = last at started plain whole
  have kept : last ≠ [] ∧ last ≠ ['.'] := by
    constructor
    · rintro rfl
      exact absurd started (by decide)
    · rintro rfl
      exact absurd started (by decide)
  refine ⟨(before.splitOn '/').filter fun part => part ≠ [] ∧ part ≠ ['.'], last, ?_, started⟩
  rw [pathParts, splitSlash, whole, List.splitOn_append_cons_self, List.splitOn_eq_singleton plain, List.filter_append]
  simp [kept]

theorem objectRevision_chars (codec : Codec) (data : Bytes) :
    ∀ c ∈ (objectRevision codec data).toList, Ordinary c ∧ c ≠ '.' := by
  have all : ∀ n < 256, isHexDigit (UInt8.ofNat n) = true → Char.ofNat n ≠ '.' := by decide +kernel
  intro c member
  simp only [objectRevision, asciiText, String.toList_ofList, List.mem_map] at member
  obtain ⟨byte, among, rfl⟩ := member
  have hex := isHex_hexEncode (codec.sha256 data)
  simp only [isHex, Bool.and_eq_true, List.all_eq_true] at hex
  exact ⟨ordinary_of_isHexDigit (hex.2 byte among),
    all byte.toNat byte.toNat_lt (by rw [UInt8.ofNat_toNat]; exact hex.2 byte among)⟩

theorem objectRevision_isKey {codec : Codec} {data : Bytes} (filled : objectRevision codec data ≠ "") :
    IsKey (objectRevision codec data) := by
  have chars := objectRevision_chars codec data
  apply IsKey.of_component
  · refine ⟨fun empty => filled (String.toList_eq_nil_iff.mp empty), ?_, ?_⟩
    all_goals
      intro dots
      exact (chars '.' (by simp [dots])).2 rfl
  · exact fun slash => (chars _ slash).1.1 rfl
  · exact fun backslash => (chars _ backslash).1.2 rfl

end Paths

namespace Usage

variable {u : Usage}

/-- Keys that a local store can keep apart from each other and from its own files. -/
structure Keys (u : Usage) : Prop where
  once : ∀ key, u.uploads key → ¬ u.swaps key
  apart : ∀ {key other}, u.uploads key ∨ u.swaps key → u.uploads other ∨ u.swaps other →
    splitSlash key <+: splitSlash other → key = other
  unlocked : ∀ {key}, u.uploads key ∨ u.swaps key → (splitSlash key).head? ≠ some ".cas-locks".toList
  finished : ∀ {key}, u.uploads key ∨ u.swaps key → ∀ last ∈ (splitSlash key).getLast?, ¬ ".put-".toList <+: last
  digests : ∀ data, u.revision data ≠ ""

theorem Places.located {key path : String} (places : u.Places key path) :
    pathParts path = cleanParts u.store.root ++ splitSlash key ∧ ∃ value, path = filepathClean value := by
  obtain ⟨named, rfl⟩ := pathForKey_eq_ok.mp places.2
  rw [← filepathJoin_key _ named]
  exact ⟨pathParts_join _ named, filepathJoin_clean _ named⟩

theorem lockDir_isKey : IsKey ".cas-locks" := validateObjectKey_eq_ok.mp (by decide +kernel)

theorem lockDir_parts : pathParts u.store.lockDir = cleanParts u.store.root ++ [".cas-locks".toList] ∧
    ∃ value, u.store.lockDir = filepathClean value :=
  ⟨pathParts_join _ lockDir_isKey, filepathJoin_clean _ lockDir_isKey⟩

theorem lockPath_parts (filled : ∀ data, u.revision data ≠ "") (key : String) :
    pathParts (u.lockPath key) =
      cleanParts u.store.root ++ [".cas-locks".toList, (u.revision key.toUTF8.data.toList).toList] := by
  have named : IsKey (objectRevision u.codec key.toUTF8.data.toList) := objectRevision_isKey (filled _)
  have alone : splitSlash (objectRevision u.codec key.toUTF8.data.toList) = [(u.revision key.toUTF8.data.toList).toList] :=
    splitSlash_of_notMem fun slash => (objectRevision_chars _ _ _ slash).1.1 rfl
  obtain ⟨parts, value, clean⟩ := lockDir_parts (u := u)
  have dir : cleanParts u.store.lockDir = pathParts u.store.lockDir := by
    rw [clean, cleanParts_clean, pathParts_clean]
  change pathParts (filepathJoin u.store.lockDir _) = _
  rw [pathParts_join _ named, dir, parts, alone, List.append_assoc]
  rfl

theorem Keys.directory (keys : u.Keys) {key path : String} (places : u.Places key path) : ¬ u.Directory path := by
  obtain ⟨parts, -⟩ := places.located
  have filled := splitSlash_ne_nil key
  rintro (⟨other, object, n, also, same⟩ | ⟨n, same⟩)
  · obtain ⟨whole, value, rfl⟩ := also.located
    obtain ⟨above, clean, shorter⟩ := pathParts_dirs (filepathDir (filepathClean value)) n
    have inner : cleanParts (filepathDir (filepathClean value)) = (cleanParts value).dropLast := by
      change cleanParts (filepathClean (throughSlash _)) = _
      rw [cleanParts_clean, ← pathParts_dir]
      exact (pathParts_clean _).symm
    rw [pathParts_clean] at whole
    rw [inner, whole, List.dropLast_append_of_ne_nil (splitSlash_ne_nil other), ← pathParts_clean, ← clean, ← same, parts,
      List.prefix_append_right_inj] at shorter
    -- the key would be above itself
    cases keys.apart places.1 also.1 (shorter.trans (List.dropLast_prefix _))
    have length := shorter.length_le
    have some := List.length_pos_iff.mpr filled
    rw [List.length_dropLast] at length
    omega
  · obtain ⟨whole, value, lockDir⟩ := lockDir_parts (u := u)
    obtain ⟨above, clean, shorter⟩ := pathParts_dirs u.store.lockDir n
    rw [lockDir, cleanParts_clean, ← pathParts_clean value, ← lockDir, whole, ← pathParts_clean, ← clean, ← same, parts,
      List.prefix_append_right_inj] at shorter
    obtain ⟨first, rest, shape⟩ := List.exists_cons_of_ne_nil filled
    rw [shape, List.cons_prefix_cons] at shorter
    exact keys.unlocked places.1 (by rw [shape, shorter.1]; rfl)

theorem Keys.layout (keys : u.Keys) : u.Layout where
  once := keys.once
  directory := keys.directory
  lock places other same := by
    obtain ⟨parts, -⟩ := places.located
    rw [same, lockPath_parts keys.digests, List.append_cancel_left_eq] at parts
    exact keys.unlocked places.1 (by rw [← parts]; rfl)
  temporary places dir lead among named := by
    obtain ⟨parts, -⟩ := places.located
    obtain ⟨rest, last, ends, started⟩ := temporaryName_parts among named
    refine keys.finished places.1 last ?_ started
    have lasts := congrArg List.getLast? (parts.symm.trans ends)
    rw [List.getLast?_append_of_ne_nil _ (splitSlash_ne_nil _), List.getLast?_concat] at lasts
    exact lasts
  lockName key dir lead among named := by
    obtain ⟨rest, last, ends, started⟩ := temporaryName_parts among named
    have lasts := congrArg List.getLast? ((lockPath_parts keys.digests key).symm.trans ends)
    rw [List.getLast?_append_of_ne_nil _ (by simp), List.getLast?_concat] at lasts
    cases lasts
    have dot : '.' ∈ (u.revision key.toUTF8.data.toList).toList := started.subset (by decide)
    exact (objectRevision_chars _ _ _ dot).2 rfl

end Usage

end CometArchive.Archive
