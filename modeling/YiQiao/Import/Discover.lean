import YiQiao.Import.Uploads
import Mathlib.Data.Finset.Card
import Mathlib.Data.List.Dedup
import Mathlib.Data.List.Sort
import Mathlib.Data.String.Basic

/-!
# Discovery

`discover_input_files` of `chat_import.py`: the inputs are listed, archives are extracted each into a
directory of its own, and an archive that cannot be read is passed over with a warning.
-/

namespace YiQiao

open Lib

/-! ## Inputs -/

/-- A path among the inputs, with what the library would read of it as an archive. -/
structure InputFile where
  path : Path
  resolved : Path
  isFile : Bool
  size : Nat
  zip : Archive ZipMember
  tar : Archive TarMember

inductive ImportInput
  | file (file : InputFile)
  | directory (files : List InputFile)

/-- The inputs with each directory replaced by the files below it, in order. -/
def candidates (inputs : List ImportInput) : List InputFile :=
  inputs.flatMap fun
    | .file file => [file]
    | .directory files => files.mergeSort fun file file' => decide (file.path ≤ file'.path)

/-- `stable_hash` gives a hexadecimal text. -/
structure Discovery where
  lowers : Lowers
  stableHash : String → String
  hash_one : ∀ s, '/' ∉ (stableHash s).toList
  extractionRoot : Path
  inputRoot : Option Path
  limits : ExtractLimits

def fileName (path : Path) : String := path.getLastD ""

/-- `path.relative_to(input_root).as_posix()`, or the name. -/
def displayPath (inputRoot : Option Path) (path : Path) : String :=
  match inputRoot with
  | none => fileName path
  | some root =>
    if root.isPrefixOf path then
      (if path.drop root.length = [] then "." else "/".intercalate (path.drop root.length))
    else fileName path

/-- `f"{index:04d}"`. -/
def padded (index : Nat) : String :=
  String.ofList (List.replicate (4 - (toString index).toList.length) '0' ++ (toString index).toList)

def archiveName (D : Discovery) (index : Nat) (display : String) : String :=
  "archive-" ++ padded index ++ "-" ++ String.ofList ((D.stableHash display).toList.take 10)

def archiveDestination (D : Discovery) (index : Nat) (display : String) : Path :=
  D.extractionRoot ++ [archiveName D index display]

structure Discovering where
  result : DiscoveryResult
  seen : List Path
  expandedBytes : Nat

def Discovering.start : Discovering := ⟨.empty, [], 0⟩

/-- What `except` takes: `OSError`, `TarError`, `BadZipFile` and `ValueError`. -/
def Raised.caught : Raised → Bool
  | .osError _ | .tarError _ | .badZipFile _ | .valueError _ => true
  | .http _ _ | .other _ => false

def Raised.text : Raised → String
  | .osError text | .tarError text | .badZipFile text | .valueError text | .http _ text | .other text => text

def megabytes (bytes : Nat) : String := toString (bytes / (1024 * 1024))

/-- The archive's entries, read by the library its name asks for. -/
def InputFile.entries (file : InputFile) (kind : String) : Archive ArchiveEntry :=
  if kind = ".zip" then file.zip.map ZipMember.entry else file.tar.map TarMember.entry

/-- The limits an archive is extracted with. -/
def leftLimits (limits : ExtractLimits) (files : Nat) : ExtractLimits := { limits with maxFiles := limits.maxFiles - files }

def extractArchive (D : Discovery) (found : Nat) (index : Nat) (file : InputFile) (kind : String) :
    Extraction DiscoveryResult :=
  let display := displayPath D.inputRoot file.path
  let limits := leftLimits D.limits found
  if kind = ".zip" then extractZip D.lowers limits (archiveDestination D index display) display file.zip
  else extractTar D.lowers limits (archiveDestination D index display) display file.tar

/-- `sum(item.path.stat().st_size for item in files)`. -/
def sizesOf (files : List SourceFile) (disk : Disk Bytes) : Nat :=
  (files.map fun file => ((disk.content file.path).getD []).length).sum

/-- The archive branch of the loop. -/
def discoverArchive (D : Discovery) (progress : Discovering) (index : Nat) (file : InputFile) (kind : String) :
    Extraction Discovering := do
  match ← Effect.attempt (extractArchive D progress.result.files.length index file kind) with
  | .error raised =>
    if raised.caught then
      pure { progress with
        result := progress.result.skip
          (some ("Could not open " ++ displayPath D.inputRoot file.path ++ ": " ++ raised.text)) }
    else .raise raised
  | .ok found =>
    let expanded := progress.expandedBytes + (← .read (sizesOf found.files))
    if D.limits.maxTotalBytes < expanded then
      .raise (.valueError ("Import expands beyond " ++ megabytes D.limits.maxTotalBytes ++ " MB."))
    else pure { progress with
      result := ⟨progress.result.files ++ found.files, progress.result.skippedFiles + found.skippedFiles,
        progress.result.warnings ++ found.warnings⟩
      expandedBytes := expanded }

/-- The document branch of the loop. -/
def discoverDocument (D : Discovery) (progress : Discovering) (file : InputFile) : Extraction Discovering :=
  let display := displayPath D.inputRoot file.path
  if D.lowers.lower (suffixOf (fileName file.path)) ∉ supportedSuffixes then
    pure { progress with result := progress.result.skip none }
  else if D.limits.maxFileBytes < file.size then
    pure { progress with result := progress.result.skip (some ("Skipped oversized file: " ++ display)) }
  else if D.limits.maxTotalBytes < progress.expandedBytes + file.size then
    .raise (.valueError
      ("Import contains more than " ++ megabytes D.limits.maxTotalBytes ++ " MB of documents."))
  else if D.limits.maxFiles < progress.result.files.length + 1 then
    .raise (.valueError ("Import contains more than " ++ toString D.limits.maxFiles ++ " supported files."))
  else pure { progress with
    result := { progress.result with files := progress.result.files ++ [⟨file.path, display⟩] }
    expandedBytes := progress.expandedBytes + file.size }

/-- The body of the loop. -/
def discoverFile (D : Discovery) (progress : Discovering) (candidate : InputFile × Nat) : Extraction Discovering :=
  let file := candidate.1
  if file.resolved ∈ progress.seen then pure progress
  else
    let progress := { progress with seen := progress.seen ++ [file.resolved] }
    if file.isFile = false then pure { progress with result := progress.result.skip none }
    else match archiveKind D.lowers ("/" ++ "/".intercalate file.path) with
      | some kind => discoverArchive D progress candidate.2 file kind
      | none => discoverDocument D progress file

/-- `discover_input_files`. -/
def discoverInputFiles (D : Discovery) (inputs : List ImportInput) : Extraction DiscoveryResult := do
  let progress ← Effect.loop (discoverFile D) .start (candidates inputs).zipIdx
  pure progress.result

/-! ## What discovery writes -/

/-- What was written between two disks is within the limits: its bytes, and the files they went to. -/
structure WithinLimits (limits : ExtractLimits) (before after : Disk Bytes) : Prop where
  news : ∃ news, after.written = news ++ before.written ∧ volume news ≤ limits.maxTotalBytes ∧
    (news.map Prod.fst).dedup.length ≤ limits.maxFiles

/-- Discovery has come to a candidate. -/
structure Reaches (D : Discovery) (inputs : List ImportInput) (before : Disk Bytes) (candidate : InputFile × Nat)
    (progress : Discovering) (disk : Disk Bytes) : Prop where
  run : ∃ front back, (candidates inputs).zipIdx = front ++ candidate :: back ∧
    (Effect.loop (discoverFile D) .start front).run before = (.ok progress, disk)

/-- It takes the candidate for an archive of this kind. -/
structure Opens (D : Discovery) (candidate : InputFile × Nat) (progress : Discovering) (kind : String) : Prop where
  unseen : candidate.1.resolved ∉ progress.seen
  isFile : candidate.1.isFile = true
  kind : archiveKind D.lowers ("/" ++ "/".intercalate candidate.1.path) = some kind

/-- The archive is abandoned after something of it was written. -/
def Spilled (D : Discovery) (candidate : InputFile × Nat) (progress : Discovering) (disk : Disk Bytes)
    (kind : String) : Prop :=
  ∃ raised after, (extractArchive D progress.result.files.length candidate.2 candidate.1 kind).run disk =
    (.error raised, after) ∧ raised.caught = true ∧ after.written ≠ disk.written

/-- No entry is written over by a shorter one. -/
def NoneShortened (taken : List (SafePath × Bytes)) : Prop :=
  taken.Pairwise fun earlier later => earlier.1 = later.1 → earlier.2.length ≤ later.2.length

/-- No archive that discovery comes to spills or shortens its own entries. -/
structure Orderly (D : Discovery) (inputs : List ImportInput) (before : Disk Bytes) : Prop where
  kept : ∀ candidate progress disk kind, Reaches D inputs before candidate progress disk →
    Opens D candidate progress kind → ¬ Spilled D candidate progress disk kind
  unshortened : ∀ candidate progress disk kind, Reaches D inputs before candidate progress disk →
    Opens D candidate progress kind →
    NoneShortened (taken D.lowers (leftLimits D.limits progress.result.files.length) (candidate.1.entries kind).members)

variable {D : Discovery} {progress progress' : Discovering} {index : Nat} {file : InputFile} {kind : String}
  {disk disk' before : Disk Bytes}

theorem extractArchive_eq {found : Nat} : extractArchive D found index file kind =
    extractEntries D.lowers (leftLimits D.limits found)
      (archiveDestination D index (displayPath D.inputRoot file.path)) (displayPath D.inputRoot file.path)
      (file.entries kind) := by
  rw [extractArchive, InputFile.entries]
  split
  · rfl
  · rfl

/-- The last file written at a path is found there, so each is at most as long as what is found. -/
theorem length_le_content {files rest : List (Path × Bytes)} {disk : Disk Bytes}
    (h : disk.written = files.reverse ++ rest)
    (hlong : files.Pairwise fun earlier later => earlier.1 = later.1 → earlier.2.length ≤ later.2.length)
    {file : Path × Bytes} (hfile : file ∈ files) :
    file.2.length ≤ ((disk.content file.1).getD []).length := by
  rw [Disk.content, h]
  clear h
  induction files using List.reverseRecOn with
  | nil => cases hfile
  | append_singleton files last ih =>
      rw [List.pairwise_append] at hlong
      rw [List.reverse_append, List.reverse_singleton, List.singleton_append, List.cons_append, List.lookup_cons]
      by_cases hlast : file.1 = last.1
      · rw [hlast, beq_self_eq_true]
        rcases List.mem_append.mp hfile with hfile | hfile
        · exact hlong.2.2 file hfile last List.mem_cons_self hlast
        · rw [List.mem_singleton.mp hfile]
          exact Nat.le_refl _
      · have hne : (file.1 == last.1) = false := by simpa using hlast
        rw [hne]
        rcases List.mem_append.mp hfile with hfile | hfile
        · exact ih hlong.1 hfile
        · exact absurd (congrArg Prod.fst (List.mem_singleton.mp hfile)) hlast

theorem volume_le_sizes {destination : Path} {displayPrefix : String} {files : List (SafePath × Bytes)}
    {rest : List (Path × Bytes)} (h : disk.written = (placed destination files).reverse ++ rest)
    (hshort : NoneShortened files) :
    volume (placed destination files) ≤ sizesOf (listed destination displayPrefix files) disk := by
  have hpairs : (placed destination files).Pairwise
      fun earlier later => earlier.1 = later.1 → earlier.2.length ≤ later.2.length := by
    rw [placed, List.pairwise_map]
    exact hshort.imp fun hle heq => hle (SafePath.parts_inj.mp (List.append_cancel_left heq))
  rw [volume, sizesOf, listed, List.map_map]
  have hmap : (placed destination files).map (fun file => ((disk.content file.1).getD []).length) =
      files.map ((fun file : SourceFile => ((disk.content file.path).getD []).length) ∘
        fun file => ⟨destination ++ file.1.parts, displayPrefix ++ "!/" ++ file.1.toPosix.asPosix⟩) := by
    rw [placed, List.map_map]
    rfl
  rw [← hmap]
  exact List.sum_le_sum fun file hfile => length_le_content h hpairs hfile

/-- The loop so far: what it wrote is counted, and the counts are within the limits. -/
structure Counted (D : Discovery) (before : Disk Bytes) (progress : Discovering) (disk : Disk Bytes) : Prop where
  news : ∃ news, disk.written = news ++ before.written ∧ volume news ≤ progress.expandedBytes ∧
    news.length ≤ progress.result.files.length
  bytes : progress.expandedBytes ≤ D.limits.maxTotalBytes
  files : progress.result.files.length ≤ D.limits.maxFiles

theorem Counted.same (h : Counted D before progress disk) (hwritten : disk'.written = disk.written)
    (hfiles : progress'.result.files = progress.result.files)
    (hbytes : progress'.expandedBytes = progress.expandedBytes) : Counted D before progress' disk' := by
  constructor
  · rw [hwritten, hfiles, hbytes]
    exact h.news
  · rw [hbytes]
    exact h.bytes
  · rw [hfiles]
    exact h.files

theorem Counted.document (h : Counted D before progress disk)
    (hrun : (discoverDocument D progress file).run disk = (.ok progress', disk')) : Counted D before progress' disk' := by
  rw [discoverDocument] at hrun
  split at hrun
  · cases hrun
    exact h.same rfl rfl rfl
  · split at hrun
    · cases hrun
      exact h.same rfl rfl rfl
    · split at hrun
      · cases hrun
      · rename_i hbytes
        split at hrun
        · cases hrun
        · rename_i hfiles
          cases hrun
          obtain ⟨news, hnews, hvolume, hlength⟩ := h.news
          refine ⟨⟨news, hnews, hvolume.trans (Nat.le_add_right _ _), ?_⟩, Nat.le_of_not_lt hbytes, ?_⟩
          · rw [List.length_append]
            exact hlength.trans (Nat.le_add_right _ _)
          · rw [List.length_append]
            exact Nat.le_of_not_lt hfiles

theorem Counted.archive (h : Counted D before progress disk)
    (hspill : ∀ raised after, (extractArchive D progress.result.files.length index file kind).run disk =
      (.error raised, after) → raised.caught = true → after.written = disk.written)
    (hshort : NoneShortened (taken D.lowers (leftLimits D.limits progress.result.files.length) (file.entries kind).members))
    (hrun : (discoverArchive D progress index file kind).run disk = (.ok progress', disk')) :
    Counted D before progress' disk' := by
  rw [discoverArchive, Effect.run_bind_attempt] at hrun
  cases hextract : (extractArchive D progress.result.files.length index file kind).run disk with
  | mk out after =>
      rw [hextract] at hrun
      cases out with
      | error raised =>
          dsimp only at hrun
          split at hrun
          · rename_i hcaught
            cases hrun
            exact h.same (hspill raised _ hextract hcaught) rfl rfl
          · cases hrun
      | ok found =>
          dsimp only at hrun
          rw [Effect.run_bind_read] at hrun
          split at hrun
          · cases hrun
          · rename_i hbytes
            cases hrun
            rw [extractArchive_eq] at hextract
            obtain ⟨total, hheld⟩ := extractEntries_ok hextract
            obtain ⟨news, hnews, hvolume, hlength⟩ := h.news
            have hsizes := @volume_le_sizes _ _ (displayPath D.inputRoot file.path) _ _ hheld.written hshort
            have hfiles := hheld.files
            dsimp only at hfiles
            have hcount : found.files.length = (placed (archiveDestination D index (displayPath D.inputRoot file.path))
                (taken D.lowers (leftLimits D.limits progress.result.files.length) (file.entries kind).members)).length := by
              rw [hfiles, listed, placed, List.length_map, List.length_map]
            have hwithin := hheld.within_files
            have hallowed := h.files
            refine ⟨⟨_ ++ news, by rw [hheld.written, hnews, List.append_assoc], ?_, ?_⟩, Nat.le_of_not_lt hbytes, ?_⟩
            · rw [volume_append, hfiles]
              have hreverse : ∀ files : List (Path × Bytes), volume files.reverse = volume files := by
                intro files
                rw [volume, volume, List.map_reverse, List.sum_reverse]
              rw [hreverse]
              exact (Nat.add_comm _ _).le.trans (Nat.add_le_add hvolume hsizes)
            · rw [List.length_append, List.length_append, List.length_reverse, hcount]
              exact (Nat.add_comm _ _).le.trans (Nat.add_le_add_right hlength _)
            · rw [List.length_append]
              simp only [leftLimits] at hwithin
              omega

theorem counted_step {candidate : InputFile × Nat} (h : Counted D before progress disk)
    (hspill : ∀ kind, Opens D candidate progress kind → ¬ Spilled D candidate progress disk kind)
    (hshort : ∀ kind, Opens D candidate progress kind → NoneShortened
      (taken D.lowers (leftLimits D.limits progress.result.files.length) (candidate.1.entries kind).members))
    (hrun : (discoverFile D progress candidate).run disk = (.ok progress', disk')) :
    Counted D before progress' disk' := by
  rw [discoverFile] at hrun
  dsimp only at hrun
  split at hrun
  · cases hrun
    exact h
  · rename_i hunseen
    split at hrun
    · cases hrun
      exact h.same rfl rfl rfl
    · rename_i hfile
      have hmarked : Counted D before { progress with seen := progress.seen ++ [candidate.1.resolved] } disk :=
        h.same rfl rfl rfl
      split at hrun
      · rename_i kind hkind
        have hopens : Opens D candidate progress kind := ⟨hunseen, by simpa using hfile, hkind⟩
        refine hmarked.archive (fun raised after hextract hcaught => ?_) (hshort kind hopens) hrun
        by_contra hne
        exact hspill kind hopens ⟨raised, after, hextract, hcaught, hne⟩
      · exact hmarked.document hrun

/-- An orderly discovery that returns has kept to the limits. -/
theorem orderly_within {inputs : List ImportInput} {result : DiscoveryResult} (h : Orderly D inputs before)
    (hrun : (discoverInputFiles D inputs).run before = (.ok result, disk')) : WithinLimits D.limits before disk' := by
  rw [discoverInputFiles, Effect.bind_ok] at hrun
  obtain ⟨progress, _, hloop, hrun⟩ := hrun
  cases hrun
  have hcounted := @Effect.loop_ok _ _ _ _ _ _ (candidates inputs).zipIdx (discoverFile D)
    (fun done progress disk => (Effect.loop (discoverFile D) .start done).run before = (.ok progress, disk) ∧
      Counted D before progress disk) .start progress hloop
    ⟨rfl, ⟨[], rfl, Nat.le_refl _, Nat.le_refl _⟩, Nat.zero_le _, Nat.zero_le _⟩ ?_
  · obtain ⟨news, hnews, hvolume, hlength⟩ := hcounted.2.news
    have hdedup := (List.dedup_sublist (news.map Prod.fst)).length_le
    rw [List.length_map] at hdedup
    exact ⟨news, hnews, hvolume.trans hcounted.2.bytes, hdedup.trans (hlength.trans hcounted.2.files)⟩
  · intro done candidate rest progress disk progress' disk' hfiles hdone hstep
    have hreaches : Reaches D inputs before candidate progress disk := ⟨done, rest, hfiles, hdone.1⟩
    exact ⟨Effect.loop_snoc hdone.1 hstep, counted_step hdone.2 (fun kind => h.kept _ _ _ kind hreaches)
      (fun kind => h.unshortened _ _ _ kind hreaches) hstep⟩

/-! ## Spilled archives -/

theorem ofDigitChars_zeros (k : Nat) (digits : List Char) :
    Nat.ofDigitChars 10 (List.replicate k '0' ++ digits) 0 = Nat.ofDigitChars 10 digits 0 := by
  rw [Nat.ofDigitChars_append, Nat.ofDigitChars_replicate_zero, Nat.mul_zero]

theorem padded_injective {index index' : Nat} (h : padded index = padded index') : index = index' := by
  have hlists := congrArg (Nat.ofDigitChars 10 · 0) (String.ofList_injective h)
  rw [ofDigitChars_zeros, ofDigitChars_zeros, repr_toList, repr_toList, Nat.ofDigitChars_ten_toDigits,
    Nat.ofDigitChars_ten_toDigits] at hlists
  exact hlists

theorem archiveName_toList {display : String} : (archiveName D index display).toList =
    "archive-".toList ++ ((padded index).toList ++ '-' :: (D.stableHash display).toList.take 10) := by
  have hdash : "-".toList = ['-'] := rfl
  have hhash : (String.ofList ((D.stableHash display).toList.take 10)).toList = (D.stableHash display).toList.take 10 :=
    String.toList_ofList
  rw [archiveName, String.toList_append, String.toList_append, String.toList_append, hhash, hdash,
    List.append_assoc, List.append_assoc, List.singleton_append]

theorem padded_noMark {c : Char} (h : c.isDigit = false) : c ∉ (padded index).toList := by
  rw [padded, String.toList_ofList]
  intro hmem
  rcases List.mem_append.mp hmem with hmem | hmem
  · rw [(List.mem_replicate.mp hmem).2] at h
    exact absurd h (by decide)
  · exact repr_noMark index h hmem

theorem archiveName_plain {display : String} : PlainName (archiveName D index display) := by
  have hmark : '-' ∈ (archiveName D index display).toList := by
    rw [archiveName_toList]
    exact List.mem_append_left _ (by decide)
  have hne : ∀ s : String, '-' ∉ s.toList → archiveName D index display ≠ s := fun s hs heq => hs (heq ▸ hmark)
  refine ⟨hne _ (by decide), hne _ (by decide), hne _ (by decide), ?_⟩
  rw [archiveName_toList]
  intro hslash
  rcases List.mem_append.mp hslash with hslash | hslash
  · exact absurd hslash (by decide)
  · rcases List.mem_append.mp hslash with hslash | hslash
    · exact padded_noMark (by decide) hslash
    · rcases List.mem_cons.mp hslash with heq | hslash
      · cases heq
      · exact D.hash_one display (List.mem_of_mem_take hslash)

theorem archiveName_index {display display' : String} {index' : Nat}
    (h : archiveName D index display = archiveName D index' display') : index = index' := by
  have hlists := congrArg String.toList h
  rw [archiveName_toList, archiveName_toList] at hlists
  obtain ⟨hpadded, _⟩ := first_mark (padded_noMark (by decide)) (padded_noMark (by decide))
    (List.append_cancel_left hlists)
  exact padded_injective (String.toList_inj.mp hpadded)

/-- A path is under the directory of one archive only. -/
theorem destination_unique {display display' : String} {index' : Nat} {path : Path}
    (h : Path.Beneath (archiveDestination D index display) path)
    (h' : Path.Beneath (archiveDestination D index' display') path) : index = index' := by
  have hresolve : ∀ index display, Path.resolve (archiveDestination D index display) =
      D.extractionRoot.resolve ++ [archiveName D index display] := by
    intro index display
    rw [archiveDestination]
    refine Path.resolve_append fun part hpart => ?_
    rw [List.mem_singleton.mp hpart]
    exact archiveName_plain
  have hinside := h.inside
  have hinside' := h'.inside
  rw [hresolve] at hinside hinside'
  have heq := (List.prefix_of_prefix_length_le hinside hinside' (by simp)).eq_of_length (by simp)
  exact archiveName_index (List.singleton_inj.mp (List.append_cancel_left heq))

theorem discoverFile_extends (candidate : InputFile × Nat) :
    Effect.Within Disk.Extends (discoverFile D progress candidate) := by
  rw [discoverFile]
  dsimp only
  split
  · exact .pure _
  · split
    · exact .pure _
    · split
      · rw [discoverArchive]
        refine .bind (.attempt ?_) fun out => ?_
        · intro disk
          rw [extractArchive_eq]
          exact (extractEntries_under _ disk).extends
        · cases out with
          | error raised =>
              dsimp only
              split
              · exact .pure _
              · exact .raise raised
          | ok found =>
              dsimp only
              refine .bind (.read _) fun sizes => ?_
              split
              · exact .raise _
              · exact .pure _
      · rw [discoverDocument]
        dsimp only
        split
        · exact .pure _
        · split
          · exact .pure _
          · split
            · exact .raise _
            · split
              · exact .raise _
              · exact .pure _

/-- The archive at an index of the candidates is spilled when discovery comes to it. -/
def SpillsAt (D : Discovery) (inputs : List ImportInput) (before : Disk Bytes) (index : Nat) : Prop :=
  ∃ file progress disk kind, Reaches D inputs before (file, index) progress disk ∧ Opens D (file, index) progress kind ∧
    Spilled D (file, index) progress disk kind

/-- What a spilled archive leaves is under its own directory, and discovery keeps it. -/
theorem spilled_leaves {inputs : List ImportInput} {result : DiscoveryResult} {after : Disk Bytes}
    (hrun : (discoverInputFiles D inputs).run before = (.ok result, after)) (h : SpillsAt D inputs before index) :
    ∃ path display news more, after.written = more ++ news ++ before.written ∧ path ∈ news.map Prod.fst ∧
      Path.Beneath (archiveDestination D index display) path := by
  obtain ⟨file, progress, disk, kind, ⟨front, back, hfiles, hfront⟩, hopens, raised, torn, hextract, hcaught, hne⟩ := h
  rw [discoverInputFiles, Effect.bind_ok] at hrun
  obtain ⟨final, _, hloop, hrun⟩ := hrun
  cases hrun
  have hbefore : Disk.Extends before disk :=
    Effect.Within.of_ok (.loop (fun progress candidate _ => discoverFile_extends candidate) _) hfront
  have hstep : ∃ progress', (discoverFile D progress (file, index)).run disk = (.ok progress', torn) := by
    rw [discoverFile]
    dsimp only
    rw [if_neg hopens.unseen, if_neg (by rw [hopens.isFile]; exact Bool.noConfusion), hopens.kind]
    dsimp only
    rw [discoverArchive, Effect.run_bind_attempt, hextract]
    dsimp only
    rw [if_pos hcaught]
    exact ⟨_, rfl⟩
  obtain ⟨progress', hstep⟩ := hstep
  have hafter : Disk.Extends torn after := by
    rw [hfiles, Effect.loop_append hfront, Effect.loop_cons, Effect.bind_ok] at hloop
    obtain ⟨progress'', torn', hstep', hback⟩ := hloop
    rw [hstep] at hstep'
    cases hstep'
    exact Effect.Within.of_ok (.loop (fun progress candidate _ => discoverFile_extends candidate) _) hback
  have hunder := @extractEntries_under D.lowers (leftLimits D.limits progress.result.files.length)
    (archiveDestination D index (displayPath D.inputRoot file.path)) (displayPath D.inputRoot file.path)
    (file.entries kind) disk
  rw [← extractArchive_eq, hextract] at hunder
  obtain ⟨news, hnews, hbeneath⟩ := hunder
  obtain ⟨early, hearly⟩ := hbefore
  obtain ⟨late, hlate⟩ := hafter
  cases news with
  | nil => exact absurd hnews hne
  | cons first news =>
      refine ⟨first.1, _, first :: news ++ early, late, ?_, by simp, hbeneath first List.mem_cons_self⟩
      rw [hlate, hnews, hearly, ← List.append_assoc (first :: news), List.append_assoc late]

/-- More spilled archives than the limit on files leave more files than it. -/
theorem spilled_exceeds {inputs : List ImportInput} {result : DiscoveryResult} {after : Disk Bytes}
    (hrun : (discoverInputFiles D inputs).run before = (.ok result, after)) {spilled : Finset Nat}
    (hspilled : ∀ index ∈ spilled, SpillsAt D inputs before index) (hmany : D.limits.maxFiles < spilled.card) :
    ¬ WithinLimits D.limits before after := by
  rintro ⟨news, hnews, _, hfiles⟩
  have hpath : ∀ index ∈ spilled, ∃ path ∈ news.map Prod.fst,
      ∃ display, Path.Beneath (archiveDestination D index display) path := by
    intro index hindex
    obtain ⟨path, display, some, more, hwritten, hpath, hbeneath⟩ := spilled_leaves hrun (hspilled index hindex)
    rw [hnews, List.append_cancel_right_eq] at hwritten
    refine ⟨path, ?_, display, hbeneath⟩
    rw [hwritten, List.map_append]
    exact List.mem_append_right _ hpath
  choose! path hmem hbeneath using hpath
  have hcard : spilled.card ≤ (news.map Prod.fst).toFinset.card := by
    refine Finset.card_le_card_of_injOn path (fun index hindex => List.mem_toFinset.mpr (hmem index hindex)) ?_
    intro index hindex index' hindex' heq
    obtain ⟨display, hunder⟩ := hbeneath index hindex
    obtain ⟨display', hunder'⟩ := hbeneath index' hindex'
    rw [← heq] at hunder'
    exact destination_unique hunder hunder'
  rw [List.card_toFinset] at hcard
  omega

/-- A discovery that returns has kept to the limits, unless an archive was abandoned after it wrote something
or an entry was written over by a shorter one. Each abandoned archive leaves a file, so more of them than the
limit on files always exceed it. -/
theorem discovery_within_limits {inputs : List ImportInput} {result : DiscoveryResult} {after : Disk Bytes}
    (hrun : (discoverInputFiles D inputs).run before = (.ok result, after)) :
    (Orderly D inputs before → WithinLimits D.limits before after) ∧
      ∀ spilled : Finset Nat, (∀ index ∈ spilled, SpillsAt D inputs before index) →
        D.limits.maxFiles < spilled.card → ¬ WithinLimits D.limits before after :=
  ⟨fun h => orderly_within h hrun, fun _ hspilled hmany => spilled_exceeds hrun hspilled hmany⟩

def tightDiscovery : Discovery where
  lowers := lowerNames
  stableHash _ := "5d41402abc"
  hash_one _ := by decide
  extractionRoot := ["extracted"]
  inputRoot := none
  limits := ⟨3, 3, 3⟩

def noTar : Archive TarMember := ⟨some (.tarError "file could not be opened successfully"), [], none⟩

def zipInput (name : String) (members : List ZipMember) : ImportInput :=
  .file ⟨["uploads", name], ["uploads", name], true, 1, ⟨none, members, none⟩, noTar⟩

theorem small_archive_within : WithinLimits tightDiscovery.limits .empty
    ((discoverInputFiles tightDiscovery [zipInput "a.zip" [zipText "x.md" [1, 2]]]).run .empty).2 := by
  refine (@discovery_within_limits tightDiscovery _ [zipInput "a.zip" [zipText "x.md" [1, 2]]]
    ⟨[⟨["extracted", "archive-0000-5d41402abc", "x.md"], "a.zip!/x.md"⟩], 0, []⟩ _ rfl).1 ?_
  have hreach : ∀ candidate progress disk, Reaches tightDiscovery [zipInput "a.zip" [zipText "x.md" [1, 2]]] .empty
      candidate progress disk → candidate = (⟨["uploads", "a.zip"], ["uploads", "a.zip"], true, 1,
        ⟨none, [zipText "x.md" [1, 2]], none⟩, noTar⟩, 0) ∧ progress = .start ∧ disk = .empty := by
    rintro candidate progress disk ⟨front, back, hfiles, hfront⟩
    cases front with
    | nil =>
        cases hfront
        exact ⟨(List.cons.inj hfiles).1.symm, rfl, rfl⟩
    | cons first front => exact absurd (congrArg List.length hfiles) (by simp [candidates, zipInput])
  constructor
  · rintro candidate progress disk kind hreaches ⟨_, _, hkind⟩ ⟨raised, after, hextract, _⟩
    obtain ⟨rfl, rfl, rfl⟩ := hreach _ _ _ hreaches
    have hzip : kind = ".zip" := Option.some.inj (hkind.symm.trans (by decide))
    subst hzip
    cases hextract
  · rintro candidate progress disk kind hreaches ⟨_, _, hkind⟩
    obtain ⟨rfl, rfl, rfl⟩ := hreach _ _ _ hreaches
    have hzip : kind = ".zip" := Option.some.inj (hkind.symm.trans (by decide))
    subst hzip
    exact List.pairwise_singleton _ _

/-- Two archives, each abandoned at its second entry, leave four bytes under a limit of three. -/
theorem abandoned_archives_spill : ∃ result after,
    (discoverInputFiles tightDiscovery [zipInput "a.zip" [zipText "x.md" [1, 2], zipText "y.md" [3, 4]],
      zipInput "b.zip" [zipText "x.md" [1, 2], zipText "y.md" [3, 4]]]).run .empty = (.ok result, after) ∧
    ¬ WithinLimits tightDiscovery.limits .empty after := by
  refine ⟨_, _, rfl, ?_⟩
  rintro ⟨news, hnews, hvolume, _⟩
  have hempty : (Disk.empty : Disk Bytes).written = [] := rfl
  rw [hempty, List.append_nil] at hnews
  rw [← hnews] at hvolume
  revert hvolume
  decide

end YiQiao
