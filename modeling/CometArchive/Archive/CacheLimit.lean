import CometArchive.Archive.Fleet
import CometArchive.Archive.Heights
import CometArchive.Archive.Hydrate
import CometArchive.Archive.Loading
import CometArchive.Shared.Decimal
import CometArchive.Shared.Eviction

set_option autoImplicit false

namespace CometArchive.Archive

open GoBytes GoError Programs Programs.Fallible Eviction

inductive DirEntry where
  | file (data : Bytes)
  | dir
  deriving DecidableEq, Repr

def DirEntry.size : DirEntry → Nat
  | .file data => data.length
  | .dir => 0

@[simp] theorem DirEntry.size_file (data : Bytes) : (DirEntry.file data).size = data.length := rfl

abbrev Listing := List (String × DirEntry)

/-- The names are in order, and the files of one file system have fewer bytes than an `int64` counts. -/
structure Directory where
  entries : Listing
  sorted : entries.Pairwise (·.1 < ·.1)
  fits : (total (·.2.size) entries : Int) ≤ maxInt64

abbrev Disk := String → Directory

def isHydratedBlockFile (name : String) : Bool :=
  GoText.len name == 18 && name.toList.drop (name.toList.length - 6) == ".block".toList &&
    (name.toList.take 12).all Char.isDigit

structure FileInfo where
  name : String
  size : Int
  deriving DecidableEq, Repr

structure Faults where
  -- which calls on a directory fail
  readDir : Option Err
  info : String → Option Err
  remove : String → Option Err

def listFiles (faults : Faults) : Listing → List FileInfo → Int → Except Err (List FileInfo × Int)
  -- the first loop of `enforceCacheLimit`
  | [], files, sum => .ok (files, sum)
  | (_, .dir) :: rest, files, sum => listFiles faults rest files sum
  | (name, .file data) :: rest, files, sum =>
    if isHydratedBlockFile name then
      match faults.info name with
      | some err => .error err
      | none => listFiles faults rest (files ++ [⟨name, data.length⟩]) (wrap64 (sum + data.length))
    else listFiles faults rest files sum

def removeFiles (faults : Faults) (maxBytes : Int) : List FileInfo → Int → Listing → Except Err Unit × Listing
  -- the second loop of `enforceCacheLimit`
  | [], _, entries => (.ok (), entries)
  | file :: rest, sum, entries =>
    if sum ≤ maxBytes then (.ok (), entries)
    else match faults.remove file.name with
      | some err => (.error err, entries)
      | none => removeFiles faults maxBytes rest (wrap64 (sum - file.size)) (entries.filter (·.1 ≠ file.name))

def enforceCacheLimit (faults : Faults) (maxBytes : Int) (entries : Listing) : Except Err Unit × Listing :=
  match faults.readDir with
  | some err => (.error err, entries)
  | none =>
    match listFiles faults entries [] 0 with
    | .error err => (.error err, entries)
    | .ok (files, sum) => removeFiles faults maxBytes (files.insertionSort fun a b => a.name ≤ b.name) sum entries

def splitPath (path : String) : String × String :=
  (String.ofList ((path.toList.reverse.dropWhile (· ≠ '/')).tail.reverse),
    String.ofList (path.toList.reverse.takeWhile (· ≠ '/')).reverse)

def setEntry (name : String) (entry : DirEntry) (entries : Listing) : Listing :=
  entries.filter (·.1 < name) ++ (name, entry) :: entries.filter (name < ·.1)

/-- What a call may answer and do to the disk, on a store that does not change. A write renames a temporary
file, so it cannot replace a directory, and one that fails may leave that file behind. -/
def DiskEffect {contentOf : String → Bytes} (s : ObjectStore contentOf) :
    (op : Op) → Disk → op.Res → Disk → Prop
  | .atomicWriteFile path data, disk, .ok _, disk' =>
    ((splitPath path).2, DirEntry.dir) ∉ (disk (splitPath path).1).entries ∧
      ∃ after, disk' = Function.update disk (splitPath path).1 after ∧
        after.entries = setEntry (splitPath path).2 (.file data) (disk (splitPath path).1).entries
  | .atomicWriteFile path _, disk, .error _, disk' =>
    disk' = disk ∨ ∃ after suffix left, disk' = Function.update disk (splitPath path).1 after ∧
      (∀ entry ∈ (disk (splitPath path).1).entries, entry.1 ≠ ".hydrate-" ++ suffix) ∧
      after.entries = setEntry (".hydrate-" ++ suffix) (.file left) (disk (splitPath path).1).entries
  | .enforceCacheLimit dir maxBytes, disk, answer, disk' =>
    ∃ faults after, disk' = Function.update disk dir after ∧
      enforceCacheLimit faults maxBytes (disk dir).entries = (answer, after.entries)
  | op, disk, answer, disk' => disk' = disk ∧ Truthful s op answer

def cachedFiles (entries : Listing) : List (String × Bytes) :=
  entries.filterMap fun entry => match entry.2 with
    | .file data => if isHydratedBlockFile entry.1 then some (entry.1, data) else none
    | .dir => none

def namedHeight (name : String) : Int := GoText.numeral (name.toList.take 12)

def blockFiles (entries : Listing) : List (Int × Bytes) :=
  (cachedFiles entries).map fun file => (namedHeight file.1, file.2)

section Names

theorem utf8Len_ge_length (chars : List Char) : chars.length ≤ String.utf8Len chars := by
  induction chars with
  | nil => simp
  | cons c rest ih =>
    have one := c.utf8Size_pos
    simp only [String.utf8Len_cons, List.length_cons]
    omega

theorem isHydratedBlockFile_iff {name : String} : isHydratedBlockFile name = true ↔
    ∃ digits : List Char, digits.length = 12 ∧ (∀ c ∈ digits, c.isDigit = true) ∧ name.toList = digits ++ ".block".toList := by
  have bytes : GoText.len name = String.utf8Len name.toList := by
    rw [GoText.len, ← String.utf8ByteSize_ofList, String.ofList_toList]
  unfold isHydratedBlockFile
  rw [bytes]
  generalize name.toList = chars
  simp only [Bool.and_eq_true, beq_iff_eq, List.all_eq_true]
  constructor
  · rintro ⟨⟨length, ended⟩, digits⟩
    generalize front : chars.take (chars.length - 6) = digitsOf at *
    have whole : chars = digitsOf ++ ".block".toList := by
      rw [← front, ← ended, List.take_append_drop]
    subst whole
    rw [String.utf8Len_append, show String.utf8Len ".block".toList = 6 by decide] at length
    have short := utf8Len_ge_length digitsOf
    -- with fewer than twelve characters in front the dot would be among the digits
    have long : ¬ digitsOf.length < 12 := by
      intro less
      have dot : '.' ∈ (digitsOf ++ ".block".toList).take 12 := by
        rw [List.take_append, List.take_of_length_le (by omega)]
        apply List.mem_append_right
        rw [show 12 - digitsOf.length = (11 - digitsOf.length) + 1 by omega]
        exact List.mem_cons_self
      exact absurd (digits '.' dot) (by decide)
    refine ⟨digitsOf, by omega, ?_, rfl⟩
    rw [List.take_append_of_le_length (by omega), List.take_of_length_le (by omega)] at digits
    exact digits
  · rintro ⟨digits, length, all, rfl⟩
    have ascii : String.utf8Len digits = digits.length := by
      clear length bytes
      induction digits with
      | nil => rfl
      | cons c rest ih =>
        have one : c.utf8Size = 1 := by
          have bounds := GoText.toNat_of_isDigit (all c List.mem_cons_self)
          rw [Char.utf8Size_eq_one_iff, UInt32.le_iff_toNat_le]
          exact bounds.2.trans (by decide)
        rw [String.utf8Len_cons, List.length_cons, ih fun other member => all other (List.mem_cons_of_mem _ member), one]
    refine ⟨⟨?_, ?_⟩, ?_⟩
    · rw [String.utf8Len_append, ascii, length]
      decide
    · rw [List.length_append, show (".block".toList).length = 6 by decide, Nat.add_sub_cancel, List.drop_left]
    · rw [List.take_append_of_le_length (by omega), List.take_of_length_le (by omega)]
      exact all

theorem append_lt_append_iff {left right ending : List Char} (length : left.length = right.length) :
    left ++ ending < right ++ ending ↔ left < right := by
  induction left generalizing right with
  | nil =>
    obtain rfl := List.length_eq_zero_iff.mp length.symm
    simp
  | cons c rest ih =>
    cases right with
    | nil => cases length
    | cons d more =>
      rw [List.cons_append, List.cons_append, List.cons_lt_cons_iff, List.cons_lt_cons_iff,
        ih (Nat.succ.inj length)]

theorem namedHeight_lt_iff {name other : String} (block : isHydratedBlockFile name = true)
    (block' : isHydratedBlockFile other = true) : namedHeight name < namedHeight other ↔ name < other := by
  obtain ⟨digits, length, all, chars⟩ := isHydratedBlockFile_iff.mp block
  obtain ⟨digits', length', all', chars'⟩ := isHydratedBlockFile_iff.mp block'
  rw [String.lt_iff_toList_lt, namedHeight, namedHeight, chars, chars', List.take_append_of_le_length (by omega),
    List.take_append_of_le_length (by omega), List.take_of_length_le (by omega), List.take_of_length_le (by omega),
    append_lt_append_iff (by omega), GoText.numeral_lt_iff (by omega) all all', Nat.cast_lt]

theorem splitPath_join {dir name : String} (plain : '/' ∉ name.toList) : splitPath (dir ++ "/" ++ name) = (dir, name) := by
  have back : (dir ++ "/" ++ name).toList.reverse = name.toList.reverse ++ '/' :: dir.toList.reverse := by
    simp
  have none : ∀ c ∈ name.toList.reverse, decide (c ≠ '/') = true := by
    intro c member
    rw [decide_eq_true_eq]
    rintro rfl
    exact plain (List.mem_reverse.mp member)
  unfold splitPath
  rw [back, List.dropWhile_append_of_pos none, List.takeWhile_append_of_pos none]
  simp

def blockName (height : Int) : String := GoText.decimal12 height ++ ".block"

variable {height : Int}

theorem toList_blockName : (blockName height).toList = (GoText.decimal12 height).toList ++ ".block".toList := by
  rw [blockName, String.toList_append]

theorem isHydratedBlockFile_blockName (nonneg : 0 ≤ height) (small : height < 10 ^ 12) :
    isHydratedBlockFile (blockName height) = true :=
  isHydratedBlockFile_iff.mpr
    ⟨_, GoText.length_decimal12 nonneg small, GoText.decimal12_isDigit nonneg, toList_blockName⟩

theorem namedHeight_blockName (nonneg : 0 ≤ height) (small : height < 10 ^ 12) :
    namedHeight (blockName height) = height := by
  have length := GoText.length_decimal12 nonneg small
  rw [namedHeight, toList_blockName, List.take_append_of_le_length (by omega), List.take_of_length_le (by omega),
    GoText.numeral_decimal12 nonneg]
  omega

theorem splitPath_blockPath {dir : String} (nonneg : 0 ≤ height) : splitPath (blockPath dir height) = (dir, blockName height) := by
  have plain : '/' ∉ (blockName height).toList := by
    rw [toList_blockName, List.mem_append]
    rintro (digit | letter)
    · exact absurd (GoText.decimal12_isDigit nonneg _ digit) (by decide)
    · revert letter
      decide
  rw [← splitPath_join plain]
  congr 1
  simp only [blockPath, blockName, String.append_assoc]
  rfl

end Names

section Listings

variable {entries after : Listing} {name : String} {data : Bytes} {faults : Faults} {maxBytes : Int}

def FileInfo.of (file : String × Bytes) : FileInfo := ⟨file.1, file.2.length⟩

theorem mem_cachedFiles {file : String × Bytes} : file ∈ cachedFiles entries ↔
    (file.1, DirEntry.file file.2) ∈ entries ∧ isHydratedBlockFile file.1 = true := by
  unfold cachedFiles
  rw [List.mem_filterMap]
  constructor
  · rintro ⟨⟨name, entry⟩, member, found⟩
    cases entry with
    | dir => cases found
    | file data =>
      dsimp only at found
      split at found
      next block =>
        cases found
        exact ⟨member, block⟩
      next => cases found
  · rintro ⟨member, block⟩
    exact ⟨_, member, by simp [block]⟩

theorem cachedFiles_sorted (sorted : entries.Pairwise (·.1 < ·.1)) : (cachedFiles entries).Pairwise (·.1 < ·.1) := by
  refine sorted.filterMap _ ?_
  rintro ⟨name, entry⟩ ⟨other, entry'⟩ less file found file' found'
  cases entry with
  | dir => cases found
  | file data =>
    cases entry' with
    | dir => cases found'
    | file data' =>
      dsimp only at found found'
      split at found
      next =>
        split at found'
        next =>
          cases found
          cases found'
          exact less
        next => cases found'
      next => cases found

theorem cachedFiles_filter (keeps : String → Prop) [DecidablePred keeps] :
    cachedFiles (entries.filter (keeps ·.1)) = (cachedFiles entries).filter (keeps ·.1) := by
  unfold cachedFiles
  rw [List.filterMap_filter, List.filter_filterMap]
  congr 1
  funext ⟨name, entry⟩
  cases entry with
  | dir => simp
  | file data =>
    by_cases kept : keeps name <;> by_cases block : isHydratedBlockFile name = true <;> simp [kept, block, Option.filter]

theorem cachedFiles_setEntry (block : isHydratedBlockFile name = true) :
    cachedFiles (setEntry name (.file data) entries) =
      (cachedFiles entries).filter (·.1 < name) ++ (name, data) :: (cachedFiles entries).filter (name < ·.1) := by
  rw [← cachedFiles_filter (· < name), ← cachedFiles_filter (name < ·)]
  unfold setEntry cachedFiles
  rw [List.filterMap_append, List.filterMap_cons]
  simp [block]

theorem total_cachedFiles_le : total (·.2.length) (cachedFiles entries) ≤ total (·.2.size) entries := by
  induction entries with
  | nil => exact le_rfl
  | cons entry rest ih =>
    obtain ⟨name, entry⟩ := entry
    unfold cachedFiles at ih ⊢
    rw [List.filterMap_cons, total_cons]
    cases entry with
    | dir => simpa [DirEntry.size] using ih
    | file data =>
      by_cases block : isHydratedBlockFile name = true
      · simp only [block, if_true, total_cons, DirEntry.size_file]
        omega
      · simp only [block, if_false, DirEntry.size_file, Bool.false_eq_true]
        omega

theorem listFiles_spec {files listed : List FileInfo} {sum final : Int} (nonneg : 0 ≤ sum)
    (fits : sum + total (·.2.length) (cachedFiles entries) ≤ maxInt64)
    (ok : listFiles faults entries files sum = .ok (listed, final)) :
    listed = files ++ (cachedFiles entries).map FileInfo.of ∧ final = sum + total (·.2.length) (cachedFiles entries) := by
  induction entries generalizing files sum with
  | nil =>
    cases ok
    simp [cachedFiles]
  | cons entry rest ih =>
    obtain ⟨name, entry⟩ := entry
    cases entry with
    | dir => exact ih nonneg fits ok
    | file data =>
      unfold listFiles at ok
      by_cases block : isHydratedBlockFile name = true
      · have more : cachedFiles ((name, .file data) :: rest) = (name, data) :: cachedFiles rest := by
          simp [cachedFiles, block]
        rw [more, total_cons] at fits
        rw [more, total_cons]
        rw [if_pos block] at ok
        push_cast at fits ⊢
        split at ok
        next => cases ok
        next =>
          have exact64 : wrap64 (sum + data.length) = sum + data.length := wrap64_of_isInt64 ⟨by omega, by omega⟩
          rw [exact64] at ok
          obtain ⟨rfl, rfl⟩ := ih (by omega) (by omega) ok
          simp [FileInfo.of, add_assoc]
      · have same : cachedFiles ((name, .file data) :: rest) = cachedFiles rest := by
          simp [cachedFiles, block]
        rw [same] at fits ⊢
        rw [if_neg block] at ok
        exact ih nonneg fits ok

theorem removeFiles_spec {items : List (String × Bytes)} {sum : Int} (listed : cachedFiles entries = items)
    (distinct : items.Pairwise (·.1 < ·.1)) (counted : sum = total (·.2.length) items) (fits : sum ≤ maxInt64)
    (ok : removeFiles faults maxBytes (items.map FileInfo.of) sum entries = (.ok (), after)) :
    cachedFiles after = shed (·.2.length) maxBytes items sum := by
  -- the files that go are the first ones, as many as it takes
  induction items generalizing entries sum with
  | nil =>
    cases ok
    exact listed
  | cons file rest ih =>
    rw [List.map_cons] at ok
    unfold removeFiles at ok
    unfold shed
    split at ok
    next within =>
      cases ok
      rw [if_pos within]
      exact listed
    next above =>
      rw [if_neg above]
      rw [total_cons] at counted
      push_cast at counted
      split at ok
      next => cases ok
      next =>
        obtain ⟨first, later⟩ := List.pairwise_cons.mp distinct
        have exact64 : wrap64 (sum - file.2.length) = sum - file.2.length := wrap64_of_isInt64 ⟨by omega, by omega⟩
        have dropped : cachedFiles (entries.filter (·.1 ≠ file.1)) = rest := by
          rw [cachedFiles_filter (· ≠ file.1), listed, List.filter_cons_of_neg (by simp)]
          refine List.filter_eq_self.mpr ?_
          intro other member
          rw [decide_eq_true_eq]
          exact (first other member).ne'
        change removeFiles _ _ _ (wrap64 (sum - file.2.length)) _ = _ at ok
        rw [exact64] at ok
        exact ih dropped later (by omega) (by omega) ok

theorem removeFiles_keeps {files : List FileInfo} {sum : Int} {entry : String × DirEntry}
    (blocks : ∀ file ∈ files, isHydratedBlockFile file.name = true) (plain : isHydratedBlockFile entry.1 = false)
    (member : entry ∈ entries) : entry ∈ (removeFiles faults maxBytes files sum entries).2 := by
  induction files generalizing entries sum with
  | nil => exact member
  | cons file rest ih =>
    unfold removeFiles
    split
    next => exact member
    next =>
      split
      next => exact member
      next =>
        refine ih (fun other inside => blocks other (List.mem_cons_of_mem _ inside)) (List.mem_filter.mpr ⟨member, ?_⟩)
        rw [decide_eq_true_eq]
        intro same
        rw [same, blocks file List.mem_cons_self] at plain
        cases plain

variable {before : Directory}

theorem listFiles_directory {files : List FileInfo} {sum : Int}
    (ok : listFiles faults before.entries [] 0 = .ok (files, sum)) :
    files = (cachedFiles before.entries).map FileInfo.of ∧ sum = total (·.2.length) (cachedFiles before.entries) ∧
      sum ≤ maxInt64 := by
  have bound := @total_cachedFiles_le before.entries
  have fits := before.fits
  obtain ⟨listed, counted⟩ := listFiles_spec le_rfl (by omega) ok
  exact ⟨listed, by omega, by omega⟩

theorem enforceCacheLimit_spec (limit : 0 ≤ maxBytes)
    (ok : enforceCacheLimit faults maxBytes before.entries = (.ok (), after)) :
    LongestWithin (·.2.length) maxBytes (cachedFiles before.entries) (cachedFiles after) := by
  have sorted := cachedFiles_sorted before.sorted
  unfold enforceCacheLimit at ok
  split at ok
  next => cases ok
  next =>
    split at ok
    next => cases ok
    next files sum listed =>
      obtain ⟨rfl, counted, fits⟩ := listFiles_directory listed
      -- the entries are listed in order already
      have ordered : ((cachedFiles before.entries).map FileInfo.of).insertionSort (fun a b => a.name ≤ b.name) =
          (cachedFiles before.entries).map FileInfo.of := by
        apply List.Pairwise.insertionSort_eq
        rw [List.pairwise_map]
        exact sorted.imp le_of_lt
      rw [ordered] at ok
      rw [removeFiles_spec rfl sorted counted fits ok, counted]
      exact shed_longest limit

theorem enforceCacheLimit_keeps {entry : String × DirEntry} {answer : Except Err Unit}
    (ended : enforceCacheLimit faults maxBytes before.entries = (answer, after))
    (plain : isHydratedBlockFile entry.1 = false) (member : entry ∈ before.entries) : entry ∈ after := by
  obtain rfl : (enforceCacheLimit faults maxBytes before.entries).2 = after := by rw [ended]
  clear ended
  unfold enforceCacheLimit
  split
  next => exact member
  next =>
    split
    next => exact member
    next files sum listed =>
      obtain ⟨rfl, -⟩ := listFiles_directory listed
      refine removeFiles_keeps ?_ plain member
      intro file inside
      obtain ⟨cached, listed, rfl⟩ := List.mem_map.mp ((List.mem_insertionSort _).mp inside)
      exact (mem_cachedFiles.mp listed).2

theorem mem_setEntry {entry : String × DirEntry} {value : DirEntry} (member : entry ∈ entries) (apart : entry.1 ≠ name) :
    entry ∈ setEntry name value entries := by
  unfold setEntry
  rcases lt_or_gt_of_ne apart with less | more
  · exact List.mem_append_left _ (List.mem_filter.mpr ⟨member, decide_eq_true less⟩)
  · exact List.mem_append_right _ (List.mem_cons_of_mem _ (List.mem_filter.mpr ⟨member, decide_eq_true more⟩))

def withBlock (height : Int) (data : Bytes) (files : List (Int × Bytes)) : List (Int × Bytes) :=
  files.filter (·.1 < height) ++ (height, data) :: files.filter (height < ·.1)

theorem mem_withBlock {height : Int} {files : List (Int × Bytes)} {file : Int × Bytes} :
    file ∈ withBlock height data files ↔ file = (height, data) ∨ file ∈ files ∧ file.1 ≠ height := by
  simp only [withBlock, List.mem_append, List.mem_cons, List.mem_filter, decide_eq_true_eq, ← lt_or_lt_iff_ne]
  tauto

theorem blockFiles_sorted (sorted : entries.Pairwise (·.1 < ·.1)) : (blockFiles entries).Pairwise (·.1 < ·.1) := by
  unfold blockFiles
  rw [List.pairwise_map]
  refine (cachedFiles_sorted sorted).imp_of_mem ?_
  intro file other member member' less
  exact (namedHeight_lt_iff (mem_cachedFiles.mp member).2 (mem_cachedFiles.mp member').2).mpr less

theorem blockFiles_setEntry {height : Int} (nonneg : 0 ≤ height) (small : height < 10 ^ 12) :
    blockFiles (setEntry (blockName height) (.file data) entries) = withBlock height data (blockFiles entries) := by
  have block := isHydratedBlockFile_blockName nonneg small
  have named := namedHeight_blockName nonneg small
  have below : (cachedFiles entries).filter (·.1 < blockName height) =
      (cachedFiles entries).filter fun file => namedHeight file.1 < height := by
    refine List.filter_congr ?_
    intro file member
    rw [decide_eq_decide, ← namedHeight_lt_iff (mem_cachedFiles.mp member).2 block, named]
  have above : (cachedFiles entries).filter (blockName height < ·.1) =
      (cachedFiles entries).filter fun file => height < namedHeight file.1 := by
    refine List.filter_congr ?_
    intro file member
    rw [decide_eq_decide, ← namedHeight_lt_iff block (mem_cachedFiles.mp member).2, named]
  unfold blockFiles withBlock
  rw [cachedFiles_setEntry block, below, above, List.map_append, List.map_cons, named, List.filter_map, List.filter_map]
  rfl

end Listings

/-- After a write and the eviction that follows it: the longest end, by height, of the files before with the
new one that has at most `maxBytes` bytes. -/
structure Settles (maxBytes : Int) (before : List (Int × Bytes)) (record : BlockRecord) (after : List (Int × Bytes)) :
    Prop where
  ordered : (withBlock record.height record.bytes before).Pairwise (·.1 < ·.1)
  kept : LongestWithin (·.2.length) maxBytes (withBlock record.height record.bytes before) after

def Fills (dir : String) (maxBytes : Int) : Disk → List BlockRecord → List Disk → Disk → Prop
  -- the disk settles after the write of each record, in turn
  | disk, [], [], final => final = disk
  | disk, record :: rest, next :: later, final =>
    Settles maxBytes (blockFiles (disk dir).entries) record (blockFiles (next dir).entries) ∧
      Fills dir maxBytes next rest later final
  | _, _, _, _ => False

abbrev DiskLog := List (Entry Op Op.Res × Disk)

def calls (log : DiskLog) : History := log.map Prod.fst

def settled : DiskLog → List Disk
  | [] => []
  | (⟨.enforceCacheLimit _ _, .ok _⟩, disk) :: rest => disk :: settled rest
  | _ :: rest => settled rest

def Untouched (dir : String) (before after : Disk) : Prop :=
  ∀ entry, isHydratedBlockFile entry.1 = false → entry ∈ (before dir).entries → entry ∈ (after dir).entries

section Run

variable {V : Type} {host : Host V} {contentOf : String → Bytes} {s : ObjectStore contentOf} {dir : String}
  {start stop maxBytes : Int} {initial disk disk' final : Disk} {log : DiskLog} {records more : List BlockRecord}

theorem settled_append (first second : DiskLog) : settled (first ++ second) = settled first ++ settled second := by
  induction first with
  | nil => rfl
  | cons entry rest ih =>
    obtain ⟨⟨op, answer⟩, disk⟩ := entry
    cases op with
    | enforceCacheLimit dir maxBytes => cases answer <;> simp [settled, ih]
    | _ => simp [settled, ih]

theorem Fills.append {states later : List Disk} (first : Fills dir maxBytes disk records states disk')
    (second : Fills dir maxBytes disk' more later final) :
    Fills dir maxBytes disk (records ++ more) (states ++ later) final := by
  induction records generalizing disk states with
  | nil =>
    cases states with
    | nil =>
      cases (first : disk' = disk)
      exact second
    | cons => cases first
  | cons record rest ih =>
    cases states with
    | nil => cases first
    | cons next states => exact ⟨first.1, ih first.2⟩

theorem Fills.origin {states : List Disk} (fills : Fills dir maxBytes disk records states final) :
    ∀ file ∈ blockFiles (final dir).entries, (∃ record ∈ records, file = (record.height, record.bytes)) ∨
      file ∈ blockFiles (disk dir).entries ∧ ∀ record ∈ records, record.height ≠ file.1 := by
  induction records generalizing disk states with
  | nil =>
    cases states with
    | nil =>
      cases (fills : final = disk)
      exact fun file member => .inr ⟨member, by simp⟩
    | cons => cases fills
  | cons record rest ih =>
    cases states with
    | nil => cases fills
    | cons next states =>
      obtain ⟨settles, fills⟩ := fills
      intro file member
      rcases ih fills file member with ⟨written, listed, same⟩ | ⟨old, apart⟩
      · exact .inl ⟨written, List.mem_cons_of_mem _ listed, same⟩
      · rcases mem_withBlock.mp (settles.kept.suffix.mem old) with same | ⟨older, differ⟩
        · exact .inl ⟨record, List.mem_cons_self, same⟩
        · refine .inr ⟨older, ?_⟩
          intro other listed
          rcases List.mem_cons.mp listed with rfl | listed
          · exact differ.symm
          · exact apart other listed

theorem Fills.within {states : List Disk} (fills : Fills dir maxBytes disk records states final) (some : records ≠ []) :
    (total (·.2.length) (blockFiles (final dir).entries) : Int) ≤ maxBytes := by
  induction records generalizing disk states with
  | nil => exact absurd rfl some
  | cons record rest ih =>
    cases states with
    | nil => cases fills
    | cons next states =>
      obtain ⟨settles, fills⟩ := fills
      cases rest with
      | cons other rest => exact ih fills (by simp)
      | nil =>
        cases states with
        | nil =>
          cases (fills : final = next)
          exact settles.kept.within
        | cons => cases fills

structure Filled (dir : String) (maxBytes : Int) (records : List BlockRecord) (before after : Disk × DiskLog) : Prop where
  wrote : written (calls after.2) = written (calls before.2) ++ records.map (blockFile dir)
  fills : ∃ states, settled after.2 = settled before.2 ++ states ∧ Fills dir maxBytes before.1 records states after.1

theorem Filled.append {a b c : Disk × DiskLog} (first : Filled dir maxBytes records a b)
    (second : Filled dir maxBytes more b c) : Filled dir maxBytes (records ++ more) a c := by
  obtain ⟨wrote, states, here, fills⟩ := first
  obtain ⟨wroteMore, later, there, fillsMore⟩ := second
  refine ⟨?_, states ++ later, ?_, fills.append fillsMore⟩
  · rw [wroteMore, wrote, List.map_append, List.append_assoc]
  · rw [there, here, List.append_assoc]

theorem Filled.none {at0 : Disk × DiskLog} : Filled dir maxBytes [] at0 at0 :=
  ⟨by simp, [], by simp, rfl⟩

theorem Filled.quiet {entry : Entry Op Op.Res} (silent : written [entry] = []) (idle : settled [(entry, disk)] = []) :
    Filled dir maxBytes [] (disk, log) (disk, log ++ [(entry, disk)]) := by
  refine ⟨?_, [], ?_, rfl⟩
  · change written (List.map _ (log ++ [(entry, disk)])) = _
    rw [List.map_append, written_append]
    simp [silent, calls]
  · change settled (log ++ [(entry, disk)]) = _
    rw [settled_append, idle]

def AllUntouched (dir : String) (initial : Disk) (at0 : Disk × DiskLog) : Prop :=
  -- nothing of the start is touched, now and at every call so far
  Untouched dir initial at0.1 ∧ ∀ entry ∈ at0.2, Untouched dir initial entry.2

theorem AllUntouched.step {entry : Entry Op Op.Res} {after : Disk} (kept : AllUntouched dir initial (disk, log))
    (keeps : Untouched dir disk after) : AllUntouched dir initial (after, log ++ [(entry, after)]) := by
  have now : Untouched dir initial after := fun entry plain member => keeps entry plain (kept.1 entry plain member)
  refine ⟨now, ?_⟩
  intro other member
  rcases List.mem_append.mp member with old | new
  · exact kept.2 other old
  · cases List.mem_singleton.mp new
    exact now

theorem AllUntouched.same {entry : Entry Op Op.Res} (kept : AllUntouched dir initial (disk, log)) :
    AllUntouched dir initial (disk, log ++ [(entry, disk)]) :=
  kept.step fun _ _ member => member

theorem DiskEffect.untouched {answer : Except Err Unit}
    (taken : DiskEffect s (.enforceCacheLimit dir maxBytes) disk answer disk') : Untouched dir disk disk' := by
  obtain ⟨faults, evicted, rfl, left⟩ := taken
  intro entry plain member
  rw [Function.update_self]
  exact enforceCacheLimit_keeps left plain member

abbrev OnDisk (s : ObjectStore contentOf) := logged (DiskEffect s)

theorem ctxErr_onDisk (maxBytes : Int) (kept : AllUntouched dir initial (disk, log)) :
    ctxErr.Safe (OnDisk s) (AllUntouched dir initial) (fun _ _ => True)
      (fun _ after => Filled dir maxBytes [] (disk, log) after) (disk, log) := by
  refine Safe.attempt kept ?_ ?_
  · rintro answer err _ ⟨after, ⟨rfl, -⟩, rfl⟩ -
    exact ⟨kept.same, trivial⟩
  · rintro answer value _ ⟨after, ⟨rfl, -⟩, rfl⟩ -
    exact ⟨kept.same, Filled.quiet rfl rfl⟩

theorem write_onDisk {α : Type} {record : BlockRecord} {rest : M α} {post : α → Disk × DiskLog → Prop}
    (limit : 0 < maxBytes) (nonneg : 0 ≤ record.height) (small : record.height < 10 ^ 12)
    (kept : AllUntouched dir initial (disk, log))
    (goesOn : ∀ after, AllUntouched dir initial after → Filled dir maxBytes [record] (disk, log) after →
      rest.Safe (OnDisk s) (AllUntouched dir initial) (fun _ _ => True) post after) :
    (do atomicWriteFile (blockPath dir record.height) record.bytes; limitCache dir maxBytes; rest : M α).Safe (OnDisk s)
      (AllUntouched dir initial) (fun _ _ => True) post (disk, log) := by
  have path := @splitPath_blockPath record.height dir nonneg
  have block := isHydratedBlockFile_blockName nonneg small
  refine Safe.bind (Safe.attempt kept ?_ ?_)
  · rintro answer err _ ⟨after, taken, rfl⟩ rfl
    refine ⟨?_, trivial⟩
    rcases taken with rfl | ⟨updated, suffix, left, rfl, fresh, entries⟩
    · exact kept.same
    · -- the temporary file has a name of its own
      rw [path] at entries fresh ⊢
      refine kept.step ?_
      intro entry _ member
      rw [Function.update_self, entries]
      exact mem_setEntry member (fresh entry member)
  · rintro answer value _ ⟨mid, taken, rfl⟩ rfl
    obtain ⟨-, updated, rfl, entries⟩ := taken
    rw [path] at entries ⊢
    have wrote : AllUntouched dir initial (Function.update disk dir updated,
        log ++ [(⟨.atomicWriteFile (blockPath dir record.height) record.bytes, .ok value⟩, Function.update disk dir updated)]) := by
      refine kept.step ?_
      intro entry plain member
      rw [Function.update_self, entries]
      refine mem_setEntry member ?_
      rintro same
      rw [same, block] at plain
      cases plain
    refine ⟨wrote, ?_⟩
    unfold limitCache
    rw [if_pos limit]
    refine Safe.bind (Safe.attempt wrote ?_ ?_)
    · rintro answer err _ ⟨after, taken, rfl⟩ rfl
      exact ⟨wrote.step taken.untouched, trivial⟩
    · rintro answer ⟨⟩ _ ⟨after, taken, rfl⟩ rfl
      refine ⟨wrote.step taken.untouched, goesOn _ (wrote.step taken.untouched) ?_⟩
      obtain ⟨faults, evicted, rfl, left⟩ := taken
      have longest := enforceCacheLimit_spec limit.le left
      refine ⟨?_, ?_⟩
      · simp [calls, written_append, written, blockFile]
      · refine ⟨[Function.update (Function.update disk dir updated) dir evicted], ?_, ⟨?_, ?_⟩, rfl⟩
        · simp [settled_append, settled]
        · rw [← blockFiles_setEntry nonneg small, ← entries]
          exact blockFiles_sorted updated.sorted
        · rw [← blockFiles_setEntry nonneg small, ← entries, Function.update_self]
          dsimp only at longest
          rw [Function.update_self] at longest
          exact longest.map fun _ => rfl

theorem hydrateRecords_onDisk {result : HydrateResult} (limit : 0 < maxBytes) (positive : 0 < start)
    (digits : stop < 10 ^ 12) (kept : AllUntouched dir initial (disk, log)) :
    (hydrateRecords dir start stop maxBytes records result).Safe (OnDisk s) (AllUntouched dir initial) (fun _ _ => True)
      (fun done after => Filled dir maxBytes (records.filter (·.Within start stop)) (disk, log) after ∧
        done.blocksWritten = result.blocksWritten + (records.filter (·.Within start stop)).length) (disk, log) := by
  induction records generalizing disk log result with
  | nil => exact Safe.pure kept ⟨Filled.none, rfl⟩
  | cons record rest ih =>
    unfold hydrateRecords
    refine Safe.bind (Safe.mono (ctxErr_onDisk maxBytes kept) (fun _ => id) (fun _ _ _ => id) ?_)
    rintro _ ⟨asked, later⟩ keptHere quiet
    split
    next outside =>
      have skipped : ¬ record.Within start stop := by
        unfold BlockRecord.Within
        omega
      rw [List.filter_cons_of_neg (by simpa using skipped)]
      refine Safe.mono (ih keptHere) (fun _ => id) (fun _ _ _ => id) ?_
      rintro done after - ⟨filled, count⟩
      exact ⟨quiet.append filled, count⟩
    next inside =>
      have taken : record.Within start stop := by
        unfold BlockRecord.Within
        omega
      rw [List.filter_cons_of_pos (by simpa using taken)]
      apply write_onDisk limit (by omega) (by omega) keptHere
      rintro ⟨wrote, last⟩ keptThere one
      refine Safe.mono (ih keptThere) (fun _ => id) (fun _ _ _ => id) ?_
      rintro done after - ⟨filled, count⟩
      refine ⟨quiet.append (one.append filled), ?_⟩
      rw [count, List.length_cons]
      dsimp only
      omega

theorem fetchSegment_onDisk {segment : SegmentManifest} (maxBytes : Int) (decodes : DecodesTo host s segment records)
    (kept : AllUntouched dir initial (disk, log)) :
    (fetchSegment host segment).Safe (OnDisk s) (AllUntouched dir initial) (fun _ _ => True)
      (fun fetched after => Filled dir maxBytes [] (disk, log) after ∧ fetched = records) (disk, log) := by
  unfold fetchSegment
  refine Safe.bind (Safe.mono (ctxErr_onDisk maxBytes kept) (fun _ => id) (fun _ _ _ => id) ?_)
  rintro _ ⟨asked, later⟩ keptHere quiet
  unfold readSegment
  refine Safe.bind (Safe.attempt keptHere ?_ ?_)
  · rintro answer err _ ⟨after, ⟨rfl, -⟩, rfl⟩ -
    exact ⟨keptHere.same, trivial⟩
  · rintro answer data _ ⟨after, ⟨rfl, truthful⟩, rfl⟩ rfl
    obtain ⟨revision, found⟩ := truthful
    refine ⟨keptHere.same, Safe.lift keptHere.same (fun _ _ => trivial) fun fetched decoded => ⟨?_, ?_⟩⟩
    · exact quiet.append (Filled.quiet rfl rfl)
    · exact DecodesTo.unique ⟨_, found, decoded⟩ decodes

theorem hydrateSegments_onDisk {segments : List SegmentManifest} {all : SegmentManifest → List BlockRecord}
    {result : HydrateResult} (decodes : ∀ segment ∈ segments, DecodesTo host s segment (all segment))
    (limit : 0 < maxBytes) (positive : 0 < start) (digits : stop < 10 ^ 12)
    (kept : AllUntouched dir initial (disk, log)) :
    (hydrateSegments host dir start stop maxBytes segments result).Safe (OnDisk s) (AllUntouched dir initial)
      (fun _ _ => True) (fun done after =>
        Filled dir maxBytes ((segments.flatMap all).filter (·.Within start stop)) (disk, log) after ∧
          done.blocksWritten = result.blocksWritten + ((segments.flatMap all).filter (·.Within start stop)).length)
      (disk, log) := by
  induction segments generalizing disk log result with
  | nil => exact Safe.pure kept ⟨Filled.none, rfl⟩
  | cons segment rest ih =>
    unfold hydrateSegments
    refine Safe.bind (Safe.mono (fetchSegment_onDisk maxBytes (decodes segment List.mem_cons_self) kept) (fun _ => id)
      (fun _ _ _ => id) ?_)
    rintro _ ⟨fetched, later⟩ keptHere ⟨quiet, rfl⟩
    refine Safe.bind (Safe.mono (hydrateRecords_onDisk limit positive digits keptHere) (fun _ => id)
      (fun _ _ _ => id) ?_)
    rintro written ⟨wrote, last⟩ keptThere ⟨filled, count⟩
    refine Safe.mono (ih (fun other member => decodes other (List.mem_cons_of_mem _ member)) keptThere) (fun _ => id)
      (fun _ _ _ => id) ?_
    rintro done after - ⟨more, all⟩
    rw [List.flatMap_cons, List.filter_append, List.length_append]
    exact ⟨quiet.append (filled.append more), by omega⟩

theorem Follows.exists_height {height : Int} (follows : Follows start records stop) (low : start ≤ height)
    (high : height < stop) : ∃ record ∈ records, record.height = height := by
  induction records generalizing start with
  | nil =>
    have same : start = stop := follows
    omega
  | cons record rest ih =>
    by_cases here : height = start
    · exact ⟨record, List.mem_cons_self, follows.1.trans here.symm⟩
    · obtain ⟨other, member, found⟩ := ih follows.2 (by omega)
      exact ⟨other, List.mem_cons_of_mem _ member, found⟩

structure InRange (host : Host V) (s : ObjectStore contentOf) (m : Manifest) (start stop : Int)
    (records : List BlockRecord) : Prop where
  -- the records of a verified archive at the heights of a range
  follows : Follows start records (stop + 1)
  archived : ∀ record ∈ records, ∃ segment ∈ m.segments, ∃ all, DecodesTo host s segment all ∧ record ∈ all

theorem hydrate_onDisk {opts : HydrateOptions} {m : Manifest} (intact : Intact host opts.manifestKey s m)
    (limit : 0 < opts.maxBytes)
    (starts : start = if opts.startHeight = 0 then m.firstHeight else opts.startHeight)
    (stops : stop = if opts.endHeight = 0 then m.lastHeight else opts.endHeight) (positive : 0 < start)
    (digits : stop < 10 ^ 12) (placed : dir = blockDir opts.cacheDir m.chainID) :
    (hydrate host opts).Safe (OnDisk s) (AllUntouched dir disk) (fun _ _ => True)
      (fun result after => start ≤ stop ∧ ∃ records, InRange host s m start stop records ∧
        Filled dir opts.maxBytes records (disk, []) after ∧ result.blocksWritten = records.length) (disk, []) := by
  obtain ⟨all, decodes⟩ := exists_decoded intact.readable
  have each : ∀ segment ∈ m.segments, Follows segment.firstHeight (all segment) (segment.lastHeight + 1) := by
    intro segment member
    obtain ⟨object, -, decoded⟩ := decodes segment member
    exact (decodeSegmentRecords_spec host.codec decoded).1.follows
  have kept : AllUntouched dir disk (disk, []) := ⟨fun _ _ member => member, by simp⟩
  unfold hydrate
  refine Safe.check kept (fun _ _ => trivial) fun _ _ => ?_
  refine Safe.check kept (fun _ _ => trivial) fun _ _ => ?_
  refine Safe.check kept (fun _ _ => trivial) fun _ _ => ?_
  refine Safe.check kept (fun _ _ => trivial) fun _ _ => ?_
  apply Safe.bind
  refine Safe.mono (loadManifest_safe (fun answer after => Truthful s (.getVersioned opts.manifestKey) answer ∧
    Filled dir opts.maxBytes [] (disk, []) after) kept ?_) (fun _ => id) (fun _ _ _ _ => trivial) ?_
  · rintro answer _ ⟨after, ⟨rfl, truthful⟩, rfl⟩
    exact ⟨kept.same, truthful, Filled.quiet rfl rfl⟩
  rintro loaded ⟨read, log⟩ keptHere ⟨data, revision, ⟨stored, quiet⟩, parses⟩
  obtain rfl : loaded = m := (parses.loads stored).unique intact.loads
  simp only [← starts, ← stops, ← placed]
  refine Safe.check keptHere (fun _ _ => trivial) fun _ inside => ?_
  rw [refuse_eq_ok] at inside
  have tiles : Tiles loaded.firstHeight loaded.segments (loaded.lastHeight + 1) := by
    rcases intact.loads.valid.range with ⟨-, first, last⟩ | ⟨-, -, -, tiles⟩
    · omega
    · exact tiles
  refine Safe.bind (Safe.mono (ctxErr_onDisk opts.maxBytes keptHere) (fun _ => id) (fun _ _ _ => id) ?_)
  rintro _ ⟨asked, later⟩ keptThere idle
  refine Safe.bind (Safe.attempt keptThere ?_ ?_)
  · rintro answer err _ ⟨after, ⟨rfl, -⟩, rfl⟩ -
    exact ⟨keptThere.same, trivial⟩
  rintro answer _ _ ⟨after, ⟨rfl, -⟩, rfl⟩ -
  refine ⟨keptThere.same, ?_⟩
  refine Safe.mono (hydrateSegments_onDisk (fun segment member => decodes segment (List.mem_filter.mp member).1) limit
    positive digits keptThere.same) (fun _ => id) (fun _ _ _ => id) ?_
  rintro result final - ⟨filled, count⟩
  rw [filter_relevant each] at filled count
  refine ⟨by omega, _, ⟨(tiles.follows each).filter (by omega) (by omega) (by omega), ?_⟩,
    quiet.append (idle.append ((Filled.quiet rfl rfl).append filled)), by simpa using count⟩
  intro record member
  obtain ⟨segment, listed, among⟩ := List.mem_flatMap.mp (List.mem_filter.mp member).1
  exact ⟨segment, listed, all segment, decodes segment listed, among⟩

/-- A hydration of a verified archive that succeeds has written each block of the range once, in order, and
after every write kept the longest end of the block files within the limit. -/
theorem hydrated_cache_bounded {checks : VerifyOptions} {checked : VerifyResult} {opts : HydrateOptions}
    {result : HydrateResult} {trail : DiskLog} (full : checks.sampleEvery = 0)
    (verified : (verify host checks).Returns (Truthful s) checked) (same : opts.manifestKey = checks.manifestKey)
    (limit : 0 < opts.maxBytes)
    (starts : start = if opts.startHeight = 0 then checked.manifest.firstHeight else opts.startHeight)
    (stops : stop = if opts.endHeight = 0 then checked.manifest.lastHeight else opts.endHeight)
    (positive : 0 < start) (digits : stop < 10 ^ 12) (placed : dir = blockDir opts.cacheDir checked.manifest.chainID)
    (hydrated : (hydrate host opts).run.Leads (OnDisk s) (disk, []) (.ok result) (final, trail)) :
    ∃ records, InRange host s checked.manifest start stop records ∧
      written (calls trail) = records.map (blockFile dir) ∧
      (result.blocksWritten : Int) = stop - start + 1 ∧
      Fills dir opts.maxBytes disk records (settled trail) final ∧
      (total (·.2.length) (blockFiles (final dir).entries) : Int) ≤ opts.maxBytes ∧
      (∀ file ∈ blockFiles (final dir).entries, start ≤ file.1 → file.1 ≤ stop →
        ∃ record ∈ records, file = (record.height, record.bytes)) ∧
      ∀ entry ∈ trail, Untouched dir disk entry.2 := by
  have intact := verify_returns full verified
  rw [← same] at intact
  obtain ⟨kept, ordered, records, inRange, ⟨wrote, states, settles, fills⟩, count⟩ :=
    (hydrate_onDisk intact limit starts stops positive digits placed).prog.leads hydrated
  have length := inRange.follows.length
  have some : records ≠ [] := by
    rintro rfl
    rw [List.length_nil] at length
    omega
  obtain rfl : settled trail = states := settles
  refine ⟨records, inRange, wrote, by omega, fills, fills.within some, ?_, kept.2⟩
  intro file member low high
  rcases fills.origin file member with written | ⟨-, apart⟩
  · exact written
  · -- every height of the range was written
    obtain ⟨record, listed, height⟩ := inRange.follows.exists_height low (by omega)
    exact absurd height (apart record listed)

end Run

section Sample

def Directory.make? (entries : Listing) : Option Directory :=
  if valid : entries.Pairwise (·.1 < ·.1) ∧ (total (·.2.size) entries : Int) ≤ maxInt64 then
    some ⟨entries, valid.1, valid.2⟩
  else none

theorem Directory.make?_entries {entries : Listing} {d : Directory} (made : Directory.make? entries = some d) :
    d.entries = entries := by
  unfold Directory.make? at made
  split at made
  next => cases made; rfl
  next => cases made

def serveDisk (s : ObjectStore spelledContent) : (op : Op) → Disk → op.Res × Disk
  | .atomicWriteFile path data, disk =>
    match Directory.make? (setEntry (splitPath path).2 (.file data) (disk (splitPath path).1).entries) with
    | some after =>
      if ((splitPath path).2, DirEntry.dir) ∈ (disk (splitPath path).1).entries then (.error (.new "is a directory"), disk)
      else (.ok (), Function.update disk (splitPath path).1 after)
    | none => (.error (.new "no space"), disk)
  | .enforceCacheLimit dir maxBytes, disk =>
    let ended := enforceCacheLimit ⟨none, fun _ => none, fun _ => none⟩ maxBytes (disk dir).entries
    match Directory.make? ended.2 with
    | some after => (ended.1, Function.update disk dir after)
    | none => (.error (.new "unreadable"), disk)
  | op, disk => ((serve sampleCodec sampleSource op s).1, disk)

theorem serveDisk_effect (s : ObjectStore spelledContent) (op : Op) (disk : Disk) :
    DiskEffect s op disk (serveDisk s op disk).1 (serveDisk s op disk).2 := by
  cases op with
  | atomicWriteFile path data =>
    simp only [serveDisk]
    split
    next after made =>
      split
      next => exact .inl rfl
      next free => exact ⟨free, after, rfl, Directory.make?_entries made⟩
    next => exact .inl rfl
  | enforceCacheLimit dir maxBytes =>
    simp only [serveDisk]
    split
    next after made => exact ⟨_, after, rfl, by rw [Directory.make?_entries made]⟩
    next => exact ⟨⟨some (.new "unreadable"), fun _ => none, fun _ => none⟩, disk dir, by simp, rfl⟩
  | get key =>
    refine ⟨rfl, ?_⟩
    cases found : s.objects key with
    | none => simp [serveDisk, serve, Truthful, found]
    | some object => simpa [serveDisk, serve, Truthful, found] using ⟨object.revision, rfl⟩
  | getVersioned key =>
    refine ⟨rfl, ?_⟩
    cases found : s.objects key <;> simp [serveDisk, serve, Truthful, found]
  | _ => exact ⟨rfl, trivial⟩

def serveLogged (s : ObjectStore spelledContent) (op : Op) (at0 : Disk × DiskLog) : op.Res × Disk × DiskLog :=
  ((serveDisk s op at0.1).1, (serveDisk s op at0.1).2,
    at0.2 ++ [(⟨op, (serveDisk s op at0.1).1⟩, (serveDisk s op at0.1).2)])

theorem serveLogged_effect (s : ObjectStore spelledContent) (op : Op) (at0 : Disk × DiskLog) :
    OnDisk s op at0 (serveLogged s op at0).1 (serveLogged s op at0).2 :=
  ⟨_, serveDisk_effect s op at0.1, rfl⟩

def cacheStore : ObjectStore spelledContent :=
  (ObjectStore.empty.put "m" [123, 125, 10]).put sampleSegment.key sampleData

def cacheManifest : Manifest :=
  { sampleManifest with revision := spelledRevision [123, 125, 10], sourceKey := "m" }

theorem cacheStore_intact : Intact sampleHost "m" cacheStore cacheManifest := by
  have there : cacheStore.objects sampleSegment.key = some ⟨sampleData, spelledRevision sampleData⟩ := by
    simp only [cacheStore, ObjectStore.put, Function.update_self]
  have named : "m" ≠ sampleSegment.key := by decide +kernel
  have manifest : cacheStore.objects "m" = some ⟨[123, 125, 10], spelledRevision [123, 125, 10]⟩ := by
    simp only [cacheStore, ObjectStore.put, Function.update_of_ne named, Function.update_self]
  refine ⟨⟨by decide +kernel, rfl, ⟨_, sampleManifest, manifest, by decide +kernel, rfl, rfl⟩,
    Manifest.validate_eq_ok.mp (by decide +kernel)⟩, ?_⟩
  intro segment member
  obtain rfl := List.mem_singleton.mp member
  have decoded : (decodeSegment sampleCodec sampleComet sampleData sampleSegment).toOption = some [sampleRecord] := by
    decide +kernel
  refine ⟨_, [sampleRecord], there, ?_⟩
  change decodeSegment sampleCodec sampleComet sampleData sampleSegment = _
  cases result : decodeSegment sampleCodec sampleComet sampleData sampleSegment with
  | error err => rw [result] at decoded; cases decoded
  | ok records => rw [result] at decoded; exact congrArg Except.ok (Option.some.inj decoded)

def cacheOptions : HydrateOptions :=
  { manifestKey := "m", cacheDir := "cache", startHeight := 0, endHeight := 0, maxBytes := 32 }

def cacheDisk : Disk := fun _ =>
  ⟨[("000000000000.block", .file [1]), ("notes", .file [2])], by decide +kernel, by decide +kernel⟩

def cacheRun (n : Nat) : Proc Op Op.Res (Except Err HydrateResult) × Disk × DiskLog :=
  drive (serveLogged cacheStore) n ⟨(hydrate sampleHost cacheOptions).run, []⟩ (cacheDisk, [])

theorem cacheRun_ok : (cacheRun 20).1.rest.returned.map Except.toBool = some true := by decide +kernel

theorem cacheRun_leads {n : Nat} {result : Except Err HydrateResult}
    (ended : (cacheRun n).1.rest.returned = some result) :
    (hydrate sampleHost cacheOptions).run.Leads (OnDisk cacheStore) (cacheDisk, []) result (cacheRun n).2 :=
  drive_leads (serveLogged_effect cacheStore) n ended

theorem hydrated_cache_bounded_single : ∃ (result : HydrateResult) (final : Disk) (trail : DiskLog),
    (hydrate sampleHost cacheOptions).run.Leads (OnDisk cacheStore) (cacheDisk, []) (.ok result) (final, trail) ∧
      result.blocksWritten = 1 ∧ (total (·.2.length) (blockFiles (final "cache/chains/c/blocks").entries) : Int) ≤ 32 := by
  have sure : (verify sampleHost { manifestKey := "m", sampleEvery := 0 }).Sure (Faithful cacheStore)
      fun result => result.manifest = cacheManifest := Intact.sure sampleHost_lawful rfl cacheStore_intact
  obtain ⟨checked, verified, same⟩ := sure.returns (faithful_served cacheStore)
  have ok := cacheRun_ok
  obtain ⟨ended, returned, isOk⟩ := Option.map_eq_some_iff.mp ok
  cases ended with
  | error err => cases isOk
  | ok result =>
    have led := cacheRun_leads returned
    generalize (cacheRun 20).2 = last at led
    have bounded := hydrated_cache_bounded rfl (returns_truthful verified) rfl (by decide) rfl rfl
      (by rw [same]; decide) (by rw [same]; decide) rfl led
    obtain ⟨records, -, -, count, -, within, -⟩ := bounded
    rw [same] at count within
    refine ⟨result, last.1, last.2, led, ?_, within⟩
    change (result.blocksWritten : Int) = 1 - 1 + 1 at count
    omega

end Sample

end CometArchive.Archive
