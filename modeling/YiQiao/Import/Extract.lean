import YiQiao.Lib.Disk
import YiQiao.Lib.Effect
import YiQiao.Lib.Fallible
import Mathlib.Algebra.GroupWithZero.Nat
import Mathlib.Data.List.Forall2
import Mathlib.Algebra.Order.BigOperators.Group.List

/-!
# Extraction

`_safe_member_path`, `safe_upload_path`, `_extract_zip` and `_extract_tar` of `chat_import.py`. An
archive is what `zipfile` and `tarfile` read of it; what they raise stands where they raise it.
-/

namespace YiQiao

open Lib

/-! ## Names -/

/-- `PurePosixPath`. -/
structure PosixPath where
  absolute : Bool
  parts : List String
deriving DecidableEq

def isPlain (part : String) : Bool := part ≠ "" && part ≠ "."

/-- `PurePosixPath(name)`: empty components and dots fall away. -/
def PosixPath.parse (name : String) : PosixPath where
  absolute := name.toList.head? = some '/'
  parts := ((name.toList.splitOn '/').map String.ofList).filter isPlain

def PosixPath.name (path : PosixPath) : String := path.parts.getLastD ""

def PosixPath.asPosix (path : PosixPath) : String :=
  (if path.absolute then "/" else "") ++ "/".intercalate path.parts

/-- `PurePath.suffix` of a path with this last component. -/
def suffixOf (name : String) : String :=
  let ending := (name.toList.reverse.takeWhile (· ≠ '.')).reverse
  let start := name.toList.length - ending.length - 1
  if '.' ∈ name.toList ∧ 0 < start ∧ ending ≠ [] then String.ofList ('.' :: ending) else ""

/-- `Path.joinpath`: a segment that is absolute starts over. -/
def joinPath (root : Path) (segments : List String) : Path :=
  segments.foldl (fun base segment =>
    if (PosixPath.parse segment).absolute then (PosixPath.parse segment).parts
    else base ++ (PosixPath.parse segment).parts) root

/-- A relative path whose components name entries of their directories. -/
structure SafePath where
  parts : List String
  ne_nil : parts ≠ []
  plain : ∀ part ∈ parts, PlainName part

def SafePath.toPosix (path : SafePath) : PosixPath := ⟨false, path.parts⟩

theorem SafePath.parts_inj {path path' : SafePath} : path.parts = path'.parts ↔ path = path' := by
  constructor
  · intro h
    cases path
    cases path'
    cases h
    rfl
  · exact congrArg _

instance : DecidableEq SafePath := fun _ _ => decidable_of_iff _ SafePath.parts_inj

/-- A piece of a split holds no separator. -/
theorem not_mem_of_splitOn {sep : Char} {chars piece : List Char} (h : piece ∈ chars.splitOn sep) : sep ∉ piece := by
  induction chars generalizing piece with
  | nil =>
      rw [List.splitOn_nil, List.mem_singleton] at h
      subst h
      exact List.not_mem_nil
  | cons c chars ih =>
      rw [List.splitOn_cons_eq_if_modifyHead] at h
      split at h
      · rcases List.mem_cons.mp h with rfl | h
        · exact List.not_mem_nil
        · exact ih h
      · rename_i hne
        cases hsplit : chars.splitOn sep with
        | nil => exact absurd hsplit (List.splitOn_ne_nil _ _)
        | cons first rest =>
            rw [hsplit] at h ih
            rcases List.mem_cons.mp h with rfl | h
            · intro hmem
              rcases List.mem_cons.mp hmem with rfl | hmem
              · exact hne (beq_self_eq_true _)
              · exact ih List.mem_cons_self hmem
            · exact ih (List.mem_cons_of_mem _ h)

theorem parse_parts_one {name part : String} (h : part ∈ (PosixPath.parse name).parts) : '/' ∉ part.toList := by
  rw [PosixPath.parse, List.mem_filter, List.mem_map] at h
  obtain ⟨⟨chars, hchars, rfl⟩, _⟩ := h
  rw [String.toList_ofList]
  exact not_mem_of_splitOn hchars

/-- Parsing one plain component gives it back. -/
theorem parse_plain {part : String} (h : PlainName part) : PosixPath.parse part = ⟨false, [part]⟩ := by
  have hsplit : part.toList.splitOn '/' = [part.toList] := List.splitOn_eq_singleton h.one
  have hhead : part.toList.head? ≠ some '/' := fun heq => h.one (List.mem_of_head? heq)
  have hplain : isPlain part = true := by simp [isPlain, h.ne_empty, h.ne_dot]
  rw [PosixPath.parse, hsplit, List.map_singleton, String.ofList_toList, List.filter_singleton, hplain]
  simp [hhead]

theorem joinPath_plain {root : Path} {parts : List String} (h : ∀ part ∈ parts, PlainName part) :
    joinPath root parts = root ++ parts := by
  induction parts generalizing root with
  | nil => exact (List.append_nil root).symm
  | cons part parts ih =>
      rw [joinPath, List.foldl_cons, parse_plain (h part List.mem_cons_self), if_neg Bool.false_ne_true]
      refine (ih fun part hpart => h part (List.mem_cons_of_mem _ hpart)).trans ?_
      rw [List.append_assoc, List.singleton_append]

def replaceBackslashes (name : String) : String :=
  String.ofList (name.toList.map fun c => if c = '\\' then '/' else c)

/-- `_safe_member_path`. -/
def safeMemberPath (name : String) : Option SafePath :=
  let normalized := PosixPath.parse (replaceBackslashes name)
  if h : normalized.absolute = true ∨ normalized.parts = [] ∨
      (∃ part ∈ normalized.parts, part ∈ ["", ".", ".."]) then none
  else if ':' ∈ (normalized.parts.headD "").toList then none
  else some {
    parts := normalized.parts
    ne_nil := fun hnil => h (.inr (.inl hnil))
    plain := fun part hpart => {
      ne_empty := fun heq => h (.inr (.inr ⟨part, hpart, by simp [heq]⟩))
      ne_dot := fun heq => h (.inr (.inr ⟨part, hpart, by simp [heq]⟩))
      ne_dots := fun heq => h (.inr (.inr ⟨part, hpart, by simp [heq]⟩))
      one := parse_parts_one hpart } }

/-- `safe_upload_path`. -/
def safeUploadPath (name fallback : String) : Path :=
  match safeMemberPath name with
  | none => (PosixPath.parse fallback).parts
  | some relative => joinPath [] relative.parts

/-! ## What is read and written -/

inductive Raised
  | osError (text : String)
  | tarError (text : String)
  | badZipFile (text : String)
  | valueError (text : String)
  | http (status : Nat) (detail : String)
  | other (text : String)
deriving DecidableEq

abbrev Bytes := List UInt8

/-- The bytes a source delivers, and what it raises after them. -/
structure Source where
  bytes : Bytes
  fault : Option Raised
deriving DecidableEq

abbrev Extraction (α : Type) := Effect Raised (Disk Bytes) α

def mkdir (path : Path) : Extraction Unit :=
  ⟨fun disk => match disk.makeDirs path with
    | some disk => (.ok (), disk)
    | none => (.error (.osError "File exists"), disk)⟩

/-- `shutil.copyfileobj` into a file opened for writing: what came before a fault stays. -/
def copyTo (target : Path) (source : Source) : Extraction Unit :=
  ⟨fun disk => match disk.write target source.bytes with
    | none => (.error (.osError "Is a directory"), disk)
    | some disk => match source.fault with
      | none => (.ok (), disk)
      | some raised => (.error raised, disk)⟩

structure SourceFile where
  path : Path
  displayPath : String
deriving DecidableEq

structure DiscoveryResult where
  files : List SourceFile
  skippedFiles : Nat
  warnings : List String
deriving DecidableEq

def DiscoveryResult.empty : DiscoveryResult := ⟨[], 0, []⟩

def DiscoveryResult.skip (result : DiscoveryResult) (warning : Option String) : DiscoveryResult :=
  { result with skippedFiles := result.skippedFiles + 1, warnings := result.warnings ++ warning.toList }

structure ExtractLimits where
  maxFileBytes : Nat
  maxTotalBytes : Nat
  maxFiles : Nat
deriving DecidableEq

/-- `str.lower`, which makes no slash. -/
structure Lowers where
  lower : String → String
  one : ∀ s, '/' ∉ s.toList → '/' ∉ (lower s).toList

def supportedSuffixes : List String := [".json", ".jsonl", ".md", ".markdown", ".mdx", ".txt"]

/-! ## Archive entries -/

/-- What an entry's name and type say. -/
inductive Screened
  | passed
  | skipped (warning : String)
  | wanted (relative : SafePath)
deriving DecidableEq

/-- An entry as the loops treat it. `opened` is what opening it gives, and `opensFirst` says that
this comes before its directory is made. -/
structure ArchiveEntry where
  screened : Screened
  size : Nat
  opened : Except Raised (Option Source)
  opensFirst : Bool
  delivers : ∀ source, opened = .ok (some source) → source.bytes.length ≤ size

/-- `ZipInfo`. -/
structure ZipMember where
  filename : String
  externalAttr : Nat
  fileSize : Nat
  opened : Except Raised Source
  delivers : ∀ source, opened = .ok source → source.bytes.length ≤ fileSize

def ZipMember.isDir (member : ZipMember) : Bool := member.filename.toList.getLast? = some '/'

/-- `(external_attr >> 16) & 0o170000`. -/
def ZipMember.unixMode (member : ZipMember) : Nat := Nat.land (member.externalAttr / 2 ^ 16) 0o170000

def ZipMember.entry (member : ZipMember) : ArchiveEntry where
  screened :=
    if member.isDir then .passed
    else match safeMemberPath member.filename with
      | none => .skipped ("Skipped unsafe archive entry: " ++ member.filename)
      | some relative =>
        if member.unixMode = 0o120000 then .skipped ("Skipped unsafe archive entry: " ++ member.filename)
        else .wanted relative
  size := member.fileSize
  opened := member.opened.map some
  opensFirst := false
  delivers source h := by
    obtain ⟨source', hopened, hsource⟩ := Lib.Fallible.map_ok.mp h
    cases hsource
    exact member.delivers source hopened

inductive TarKind
  | file
  | link
  | other
deriving DecidableEq

/-- `TarInfo`. -/
structure TarMember where
  name : String
  kind : TarKind
  size : Nat
  extracted : Except Raised (Option Source)
  delivers : ∀ source, extracted = .ok (some source) → source.bytes.length ≤ size

def TarMember.entry (member : TarMember) : ArchiveEntry where
  screened := match member.kind with
    | .link => .skipped ("Skipped archive link: " ++ member.name)
    | .other => .passed
    | .file => match safeMemberPath member.name with
      | none => .skipped ("Skipped unsafe archive entry: " ++ member.name)
      | some relative => .wanted relative
  size := member.size
  opened := member.extracted
  opensFirst := true
  delivers := member.delivers

/-! ## The loops -/

structure Extracting where
  result : DiscoveryResult
  totalBytes : Nat
deriving DecidableEq

def Extracting.start : Extracting := ⟨.empty, 0⟩

/-- The entry's data, written at the target; nothing where the entry has none. -/
def ArchiveEntry.store (entry : ArchiveEntry) (target : Path) : Extraction Bool :=
  if entry.opensFirst then do
    match ← .lift entry.opened with
    | none => pure false
    | some source =>
      mkdir target.dropLast
      copyTo target source
      pure true
  else do
    mkdir target.dropLast
    match ← .lift entry.opened with
    | none => pure false
    | some source =>
      copyTo target source
      pure true

section Loop

variable (L : Lowers) (limits : ExtractLimits) (destination : Path) (displayPrefix : String)

/-- What the body of the loop does with an entry before it stores it. -/
inductive Admission
  | skip (result : DiscoveryResult)
  | refuse (raised : Raised)
  | store (relative : SafePath)

def admitEntry (progress : Extracting) (entry : ArchiveEntry) : Admission :=
  match entry.screened with
  | .passed => .skip progress.result
  | .skipped warning => .skip (progress.result.skip (some warning))
  | .wanted relative =>
    if L.lower (suffixOf relative.toPosix.name) ∉ supportedSuffixes then .skip (progress.result.skip none)
    else if limits.maxFileBytes < entry.size then
      .skip (progress.result.skip
        (some ("Skipped oversized file: " ++ displayPrefix ++ "!/" ++ relative.toPosix.asPosix)))
    else if limits.maxTotalBytes < progress.totalBytes + entry.size then
      .refuse (.valueError
        ("Archive expands beyond " ++ toString (limits.maxTotalBytes / (1024 * 1024)) ++ " MB."))
    else if limits.maxFiles ≤ progress.result.files.length then
      .refuse (.valueError ("Archive contains more than " ++ toString limits.maxFiles ++ " supported files."))
    else .store relative

/-- The body of both loops. -/
def extractEntry (progress : Extracting) (entry : ArchiveEntry) : Extraction Extracting :=
  match admitEntry L limits displayPrefix progress entry with
  | .skip result => pure { progress with result := result }
  | .refuse raised => .raise raised
  | .store relative => do
    let target := joinPath destination relative.parts
    let total := progress.totalBytes + entry.size
    if ← entry.store target then
      pure {
        result := { progress.result with
          files := progress.result.files ++ [⟨target, displayPrefix ++ "!/" ++ relative.toPosix.asPosix⟩] }
        totalBytes := total }
    else pure ⟨progress.result.skip none, total⟩

/-- What `zipfile` or `tarfile` reads of a file: what opening it raises, its entries, and what
reading on after them raises. -/
structure Archive (μ : Type) where
  opening : Option Raised
  members : List μ
  ending : Option Raised

def raiseIf : Option Raised → Extraction Unit
  | none => pure ()
  | some raised => .raise raised

def extractEntries (archive : Archive ArchiveEntry) : Extraction DiscoveryResult := do
  mkdir destination
  raiseIf archive.opening
  let progress ← Effect.loop (extractEntry L limits destination displayPrefix) .start archive.members
  raiseIf archive.ending
  pure progress.result

end Loop

def Archive.map {μ ν : Type} (f : μ → ν) (archive : Archive μ) : Archive ν :=
  ⟨archive.opening, archive.members.map f, archive.ending⟩

/-- `_extract_zip`. -/
def extractZip (L : Lowers) (limits : ExtractLimits) (destination : Path) (displayPrefix : String)
    (archive : Archive ZipMember) : Extraction DiscoveryResult :=
  extractEntries L limits destination displayPrefix (archive.map ZipMember.entry)

/-- `_extract_tar`. -/
def extractTar (L : Lowers) (limits : ExtractLimits) (destination : Path) (displayPrefix : String)
    (archive : Archive TarMember) : Extraction DiscoveryResult :=
  extractEntries L limits destination displayPrefix (archive.map TarMember.entry)

/-! ## What the loops do -/

variable {L : Lowers} {limits : ExtractLimits} {destination : Path} {displayPrefix : String}
  {entry : ArchiveEntry} {target : Path} {disk disk' : Disk Bytes}

theorem mkdir_run : (mkdir target).run disk = (.ok (), { disk with dirs := target.inits ++ disk.dirs }) ∨
    ∃ raised, (mkdir target).run disk = (.error raised, disk) := by
  rw [mkdir]
  dsimp only
  cases h : disk.makeDirs target with
  | none => exact .inr ⟨_, rfl⟩
  | some disk' =>
      obtain ⟨_, rfl⟩ := Disk.makeDirs_some h
      exact .inl rfl

/-- How copying ends. -/
inductive Copied (target : Path) (source : Source) (disk : Disk Bytes) : Except Raised Unit × Disk Bytes → Prop
  | whole (dirs : List Path) : source.fault = none →
      Copied target source disk (.ok (), ⟨(target, source.bytes) :: disk.written, dirs⟩)
  | torn (raised : Raised) (dirs : List Path) : source.fault = some raised →
      Copied target source disk (.error raised, ⟨(target, source.bytes) :: disk.written, dirs⟩)
  | refused (raised : Raised) : Copied target source disk (.error raised, disk)

theorem copyTo_copied {source : Source} : Copied target source disk ((copyTo target source).run disk) := by
  rw [copyTo]
  dsimp only
  cases h : disk.write target source.bytes with
  | none => exact .refused _
  | some disk' =>
      obtain ⟨_, rfl⟩ := Disk.write_some h
      cases hfault : source.fault with
      | none => exact .whole disk.dirs hfault
      | some raised => exact .torn raised disk.dirs hfault

theorem copyTo_ok {source : Source} {u : Unit} (h : (copyTo target source).run disk = (.ok u, disk')) :
    target ∉ disk.dirs ∧ source.fault = none ∧ disk' = { disk with written := (target, source.bytes) :: disk.written } := by
  rw [copyTo] at h
  dsimp only at h
  cases hwrite : disk.write target source.bytes with
  | none =>
      rw [hwrite] at h
      cases h
  | some made =>
      obtain ⟨hopen, rfl⟩ := Disk.write_some hwrite
      rw [hwrite] at h
      cases hfault : source.fault with
      | none =>
          rw [hfault] at h
          cases h
          exact ⟨hopen, rfl, rfl⟩
      | some raised =>
          rw [hfault] at h
          cases h

theorem mkdir_under (root path : Path) : Effect.Within (Disk.AddsUnder root) (mkdir path) := by
  intro disk
  rcases @mkdir_run path disk with hrun | ⟨raised, hrun⟩
  · rw [hrun]
    exact ⟨[], rfl, fun _ hfile => by cases hfile⟩
  · rw [hrun]
    exact Std.Refl.refl disk

theorem copyTo_under {root : Path} {source : Source} (h : Path.Beneath root target) :
    Effect.Within (Disk.AddsUnder root) (copyTo target source) := by
  intro disk
  have hcopied := @copyTo_copied target disk source
  generalize (copyTo target source).run disk = final at hcopied ⊢
  cases hcopied with
  | whole => exact ⟨[_], rfl, fun file hfile => by rw [List.mem_singleton.mp hfile]; exact h⟩
  | torn => exact ⟨[_], rfl, fun file hfile => by rw [List.mem_singleton.mp hfile]; exact h⟩
  | refused => exact Std.Refl.refl disk

/-- How storing an entry ends. -/
inductive ArchiveEntry.Stored (entry : ArchiveEntry) (target : Path) (disk : Disk Bytes) :
    Except Raised Bool × Disk Bytes → Prop
  | whole (source : Source) (dirs : List Path) : entry.opened = .ok (some source) → source.fault = none →
      Stored entry target disk (.ok true, ⟨(target, source.bytes) :: disk.written, dirs⟩)
  | nothing (dirs : List Path) : entry.opened = .ok none →
      Stored entry target disk (.ok false, ⟨disk.written, dirs⟩)
  | torn (source : Source) (raised : Raised) (dirs : List Path) : entry.opened = .ok (some source) →
      source.fault = some raised →
      Stored entry target disk (.error raised, ⟨(target, source.bytes) :: disk.written, dirs⟩)
  | failed (raised : Raised) (dirs : List Path) : Stored entry target disk (.error raised, ⟨disk.written, dirs⟩)

theorem ArchiveEntry.Stored.of_copied {source : Source} {dirs : List Path} {final : Except Raised Unit × Disk Bytes}
    (hopened : entry.opened = .ok (some source)) (h : Copied target source ⟨disk.written, dirs⟩ final) :
    entry.Stored target disk (final.1.map fun _ => true, final.2) := by
  cases h with
  | whole dirs hfault => exact .whole source dirs hopened hfault
  | torn raised dirs hfault => exact .torn source raised dirs hopened hfault
  | refused raised => exact .failed raised dirs

theorem copyTo_then {source : Source} : (do copyTo target source; pure true : Extraction Bool).run disk =
    (((copyTo target source).run disk).1.map fun _ => true, ((copyTo target source).run disk).2) := by
  rw [Effect.run_bind]
  rcases (copyTo target source).run disk with ⟨_ | _, _⟩
  · rfl
  · rfl

theorem ArchiveEntry.store_stored : entry.Stored target disk ((entry.store target).run disk) := by
  rw [store]
  split
  · cases hopened : entry.opened with
    | error raised => exact .failed raised disk.dirs
    | ok found =>
        cases found with
        | none => exact .nothing disk.dirs hopened
        | some source =>
            rw [Effect.run_bind, Effect.run_lift]
            dsimp only
            rw [Effect.run_bind]
            rcases @mkdir_run target.dropLast disk with hrun | ⟨raised, hrun⟩
            · rw [hrun]
              dsimp only
              rw [copyTo_then]
              exact .of_copied hopened copyTo_copied
            · rw [hrun]
              exact .failed raised disk.dirs
  · rw [Effect.run_bind]
    rcases @mkdir_run target.dropLast disk with hrun | ⟨raised, hrun⟩
    · rw [hrun]
      dsimp only
      rw [Effect.run_bind, Effect.run_lift]
      cases hopened : entry.opened with
      | error raised => exact .failed raised _
      | ok found =>
          cases found with
          | none => exact .nothing _ hopened
          | some source =>
              dsimp only
              rw [copyTo_then]
              exact .of_copied hopened copyTo_copied
    · rw [hrun]
      exact .failed raised disk.dirs

/-! ## What an archive leaves -/

/-- The place and the bytes of an entry that the loops take. -/
def ArchiveEntry.accepted (L : Lowers) (limits : ExtractLimits) (entry : ArchiveEntry) : Option (SafePath × Bytes) :=
  match entry.screened with
  | .wanted relative =>
    if L.lower (suffixOf relative.toPosix.name) ∉ supportedSuffixes then none
    else if limits.maxFileBytes < entry.size then none
    else match entry.opened with
      | .ok (some source) => some (relative, source.bytes)
      | _ => none
  | _ => none

theorem admitEntry_skip {progress : Extracting} {result : DiscoveryResult}
    (h : admitEntry L limits displayPrefix progress entry = .skip result) :
    entry.accepted L limits = none ∧ result.files = progress.result.files := by
  rw [admitEntry] at h
  rw [ArchiveEntry.accepted]
  split at h
  · rename_i hscreened
    cases h
    rw [hscreened]
    exact ⟨rfl, rfl⟩
  · rename_i hscreened
    cases h
    rw [hscreened]
    exact ⟨rfl, rfl⟩
  · rename_i hscreened
    rw [hscreened]
    dsimp only
    split at h
    · rename_i hsuffix
      cases h
      exact ⟨if_pos hsuffix, rfl⟩
    · rename_i hsuffix
      rw [if_neg hsuffix]
      split at h
      · rename_i hsize
        cases h
        exact ⟨if_pos hsize, rfl⟩
      · split at h
        · cases h
        · split at h
          · cases h
          · cases h

/-- What an admitted entry passed. -/
structure Admitted (L : Lowers) (limits : ExtractLimits) (progress : Extracting) (entry : ArchiveEntry)
    (relative : SafePath) : Prop where
  wanted : entry.screened = .wanted relative
  supported : L.lower (suffixOf relative.toPosix.name) ∈ supportedSuffixes
  small : entry.size ≤ limits.maxFileBytes
  bytes_left : progress.totalBytes + entry.size ≤ limits.maxTotalBytes
  files_left : progress.result.files.length < limits.maxFiles

theorem admitEntry_store {progress : Extracting} {relative : SafePath}
    (h : admitEntry L limits displayPrefix progress entry = .store relative) :
    Admitted L limits progress entry relative := by
  rw [admitEntry] at h
  split at h
  · cases h
  · cases h
  · rename_i hscreened
    split at h
    · cases h
    · rename_i hsuffix
      split at h
      · cases h
      · rename_i hsize
        split at h
        · cases h
        · rename_i hbytes
          split at h
          · cases h
          · rename_i hfiles
            cases h
            exact ⟨hscreened, by simpa using hsuffix, Nat.le_of_not_lt hsize, Nat.le_of_not_lt hbytes,
              Nat.lt_of_not_le hfiles⟩

theorem Admitted.accepted {progress : Extracting} {relative : SafePath} (h : Admitted L limits progress entry relative) :
    entry.accepted L limits = match entry.opened with
      | .ok (some source) => some (relative, source.bytes)
      | _ => none := by
  rw [ArchiveEntry.accepted, h.wanted]
  dsimp only
  rw [if_neg (not_not_intro h.supported), if_neg (Nat.not_lt_of_le h.small)]

/-- How the loops' body ends. -/
inductive EntryDone (L : Lowers) (limits : ExtractLimits) (destination : Path) (displayPrefix : String)
    (progress : Extracting) (entry : ArchiveEntry) (disk : Disk Bytes) : Except Raised Extracting × Disk Bytes → Prop
  | skipped (result : DiscoveryResult) : entry.accepted L limits = none → result.files = progress.result.files →
      EntryDone L limits destination displayPrefix progress entry disk (.ok { progress with result := result }, disk)
  | nothing (relative : SafePath) (dirs : List Path) : Admitted L limits progress entry relative →
      entry.opened = .ok none →
      EntryDone L limits destination displayPrefix progress entry disk
        (.ok ⟨progress.result.skip none, progress.totalBytes + entry.size⟩, ⟨disk.written, dirs⟩)
  | stored (relative : SafePath) (source : Source) (dirs : List Path) : Admitted L limits progress entry relative →
      entry.opened = .ok (some source) →
      EntryDone L limits destination displayPrefix progress entry disk
        (.ok ⟨{ progress.result with files := progress.result.files ++
          [⟨destination ++ relative.parts, displayPrefix ++ "!/" ++ relative.toPosix.asPosix⟩] },
          progress.totalBytes + entry.size⟩, ⟨(destination ++ relative.parts, source.bytes) :: disk.written, dirs⟩)
  | torn (relative : SafePath) (source : Source) (raised : Raised) (dirs : List Path) :
      EntryDone L limits destination displayPrefix progress entry disk
        (.error raised, ⟨(destination ++ relative.parts, source.bytes) :: disk.written, dirs⟩)
  | failed (raised : Raised) (dirs : List Path) :
      EntryDone L limits destination displayPrefix progress entry disk (.error raised, ⟨disk.written, dirs⟩)

theorem extractEntry_done {progress : Extracting} : EntryDone L limits destination displayPrefix progress entry disk
    ((extractEntry L limits destination displayPrefix progress entry).run disk) := by
  rw [extractEntry]
  cases hadmit : admitEntry L limits displayPrefix progress entry with
  | skip result =>
      obtain ⟨haccepted, hfiles⟩ := admitEntry_skip hadmit
      exact .skipped result haccepted hfiles
  | refuse raised => exact .failed raised disk.dirs
  | store relative =>
      have hadmitted := admitEntry_store hadmit
      dsimp only
      rw [joinPath_plain relative.plain, Effect.run_bind]
      have hstored := @ArchiveEntry.store_stored entry (destination ++ relative.parts) disk
      generalize (entry.store (destination ++ relative.parts)).run disk = final at hstored ⊢
      cases hstored with
      | whole source dirs hopened _ => exact .stored relative source dirs hadmitted hopened
      | nothing dirs hopened => exact .nothing relative dirs hadmitted hopened
      | torn source raised dirs _ _ => exact .torn relative source raised dirs
      | failed raised dirs => exact .failed raised dirs

/-- What the loops took of the entries. -/
def taken (L : Lowers) (limits : ExtractLimits) (entries : List ArchiveEntry) : List (SafePath × Bytes) :=
  entries.filterMap (ArchiveEntry.accepted L limits)

def placed (destination : Path) (taken : List (SafePath × Bytes)) : List (Path × Bytes) :=
  taken.map fun file => (destination ++ file.1.parts, file.2)

def listed (destination : Path) (displayPrefix : String) (taken : List (SafePath × Bytes)) : List SourceFile :=
  taken.map fun file => ⟨destination ++ file.1.parts, displayPrefix ++ "!/" ++ file.1.toPosix.asPosix⟩

def volume (files : List (Path × Bytes)) : Nat := (files.map fun file => file.2.length).sum

/-- The loops so far: what they took stands on the disk and in the result, within the limits. -/
structure ExtractHeld (L : Lowers) (limits : ExtractLimits) (destination : Path) (displayPrefix : String) (before : Disk Bytes)
    (done : List ArchiveEntry) (progress : Extracting) (disk : Disk Bytes) : Prop where
  written : disk.written = (placed destination (taken L limits done)).reverse ++ before.written
  files : progress.result.files = listed destination displayPrefix (taken L limits done)
  counted : volume (placed destination (taken L limits done)) ≤ progress.totalBytes
  within_bytes : progress.totalBytes ≤ limits.maxTotalBytes
  within_files : progress.result.files.length ≤ limits.maxFiles

theorem taken_snoc {done : List ArchiveEntry} :
    taken L limits (done ++ [entry]) = taken L limits done ++ (entry.accepted L limits).toList := by
  rw [taken, List.filterMap_append, taken]
  cases h : entry.accepted L limits with
  | none => rw [List.filterMap_cons_none h, List.filterMap_nil, Option.toList_none]
  | some file => rw [List.filterMap_cons_some h, List.filterMap_nil, Option.toList_some]

theorem volume_append {files files' : List (Path × Bytes)} : volume (files ++ files') = volume files + volume files' := by
  rw [volume, List.map_append, List.sum_append, volume, volume]

theorem extractHeld_step {before : Disk Bytes} {done : List ArchiveEntry} {progress progress' : Extracting}
    (h : ExtractHeld L limits destination displayPrefix before done progress disk)
    (hrun : (extractEntry L limits destination displayPrefix progress entry).run disk = (.ok progress', disk')) :
    ExtractHeld L limits destination displayPrefix before (done ++ [entry]) progress' disk' := by
  have hdone := @extractEntry_done L limits destination displayPrefix entry disk progress
  rw [hrun] at hdone
  cases hdone with
  | skipped result haccepted hfiles =>
      have htaken : taken L limits (done ++ [entry]) = taken L limits done := by
        rw [taken_snoc, haccepted, Option.toList_none, List.append_nil]
      constructor
      · rw [htaken]
        exact h.written
      · rw [htaken]
        exact hfiles.trans h.files
      · rw [htaken]
        exact h.counted
      · exact h.within_bytes
      · exact (congrArg List.length hfiles).le.trans h.within_files
  | nothing relative dirs hadmitted hopened =>
      have htaken : taken L limits (done ++ [entry]) = taken L limits done := by
        rw [taken_snoc, hadmitted.accepted, hopened]
        exact List.append_nil _
      constructor
      · rw [htaken]
        exact h.written
      · rw [htaken]
        exact h.files
      · rw [htaken]
        exact h.counted.trans (Nat.le_add_right _ _)
      · exact hadmitted.bytes_left
      · exact h.within_files
  | stored relative source dirs hadmitted hopened =>
      have htaken : taken L limits (done ++ [entry]) = taken L limits done ++ [(relative, source.bytes)] := by
        rw [taken_snoc, hadmitted.accepted, hopened]
        rfl
      have hdelivers := entry.delivers source hopened
      constructor
      · rw [htaken, placed, List.map_append, List.reverse_append, List.append_assoc]
        exact congrArg _ h.written
      · rw [htaken, listed, List.map_append]
        exact congrArg (· ++ _) h.files
      · have hcounted := h.counted
        rw [htaken, placed, List.map_append, volume_append]
        exact Nat.add_le_add hcounted hdelivers
      · exact hadmitted.bytes_left
      · have hleft := hadmitted.files_left
        rw [List.length_append]
        exact hleft

theorem run_raiseIf {fault : Option Raised} {out : Except Raised Unit} :
    (raiseIf fault).run disk = (out, disk') → disk' = disk := by
  cases fault with
  | none =>
      intro h
      cases h
      rfl
  | some raised =>
      intro h
      cases h
      rfl

/-- An extraction that returned: what it took is listed, stands on the disk and is within the limits. -/
theorem extractEntries_ok {archive : Archive ArchiveEntry} {result : DiscoveryResult}
    (h : (extractEntries L limits destination displayPrefix archive).run disk = (.ok result, disk')) :
    ∃ total, ExtractHeld L limits destination displayPrefix disk archive.members ⟨result, total⟩ disk' := by
  rw [extractEntries, Effect.bind_ok] at h
  obtain ⟨_, made, hmkdir, h⟩ := h
  have hwritten : made.written = disk.written := by
    rcases @mkdir_run destination disk with hrun | ⟨raised, hrun⟩
    · rw [hrun] at hmkdir
      cases hmkdir
      rfl
    · rw [hrun] at hmkdir
      cases hmkdir
  rw [Effect.bind_ok] at h
  obtain ⟨_, opened, hopening, h⟩ := h
  have heq := run_raiseIf hopening
  subst heq
  rw [Effect.bind_ok] at h
  obtain ⟨progress, read, hloop, h⟩ := h
  rw [Effect.bind_ok] at h
  obtain ⟨_, ended, hending, h⟩ := h
  have heq := run_raiseIf hending
  subst heq
  cases h
  refine ⟨progress.totalBytes, ?_⟩
  refine Effect.loop_ok (I := fun done progress disk' =>
    ExtractHeld L limits destination displayPrefix disk done progress disk') hloop ?_ ?_
  · exact ⟨hwritten, rfl, Nat.le_refl _, Nat.zero_le _, Nat.zero_le _⟩
  · intro done entry rest progress disk progress' disk' _ hheld hrun
    exact extractHeld_step hheld hrun

theorem beneath_safe (relative : SafePath) : Path.Beneath destination (destination ++ relative.parts) :=
  Path.beneath_append relative.plain relative.ne_nil

/-- Whatever an extraction writes, before it returns or raises, is under its destination. -/
theorem extractEntries_under (archive : Archive ArchiveEntry) :
    Effect.Within (Disk.AddsUnder destination) (extractEntries L limits destination displayPrefix archive) := by
  have hraise : ∀ fault, Effect.Within (Disk.AddsUnder destination) (raiseIf fault) := by
    intro fault
    cases fault with
    | none => exact .pure ()
    | some raised => exact .raise raised
  have hentry : ∀ progress, ∀ entry ∈ archive.members,
      Effect.Within (Disk.AddsUnder destination) (extractEntry L limits destination displayPrefix progress entry) := by
    intro progress entry _ disk
    have hdone := @extractEntry_done L limits destination displayPrefix entry disk progress
    generalize (extractEntry L limits destination displayPrefix progress entry).run disk = final at hdone ⊢
    cases hdone with
    | skipped => exact Std.Refl.refl disk
    | nothing => exact ⟨[], rfl, fun _ hfile => by cases hfile⟩
    | failed => exact ⟨[], rfl, fun _ hfile => by cases hfile⟩
    | stored relative source =>
        exact ⟨[_], rfl, fun file hfile => by rw [List.mem_singleton.mp hfile]; exact beneath_safe relative⟩
    | torn relative source =>
        exact ⟨[_], rfl, fun file hfile => by rw [List.mem_singleton.mp hfile]; exact beneath_safe relative⟩
  exact .bind (mkdir_under _ _) fun _ => .bind (hraise _) fun _ => .bind (.loop hentry _) fun _ => .bind (hraise _) fun _ => .pure _

/-- The extraction returns each entry it took under its own path, with its own bytes, exactly when no
two of them have one path. -/
theorem extractEntries_kept_iff {archive : Archive ArchiveEntry} {result : DiscoveryResult}
    (h : (extractEntries L limits destination displayPrefix archive).run disk = (.ok result, disk')) :
    Disk.EachKept ((taken L limits archive.members).map Prod.snd) (result.files.map SourceFile.path) disk' ↔
      ((taken L limits archive.members).map Prod.fst).Nodup := by
  obtain ⟨_, hheld⟩ := extractEntries_ok h
  have hfiles := hheld.files
  dsimp only at hfiles
  have hpaths : result.files.map SourceFile.path =
      (placed destination (taken L limits archive.members)).map Prod.fst := by
    rw [hfiles, listed, placed, List.map_map, List.map_map]
    rfl
  have howns : (taken L limits archive.members).map Prod.snd =
      (placed destination (taken L limits archive.members)).map Prod.snd := by
    rw [placed, List.map_map]
    rfl
  rw [hpaths, howns, Disk.eachKept_iff hheld.written, placed, List.map_map]
  have hsplit : (taken L limits archive.members).map (Prod.fst ∘ fun file => (destination ++ file.1.parts, file.2)) =
      ((taken L limits archive.members).map Prod.fst).map fun relative => destination ++ relative.parts := by
    rw [List.map_map]
    rfl
  rw [hsplit]
  refine List.nodup_map_iff fun relative relative' heq => ?_
  exact SafePath.parts_inj.mp (List.append_cancel_left heq)

end YiQiao
