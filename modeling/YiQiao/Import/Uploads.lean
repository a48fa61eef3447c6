import YiQiao.Import.Extract
import YiQiao.Lib.Marks

/-!
# Uploads

`_save_import_uploads` of `main.py`: each supported file is written under its safe path, or under the
same path with its index in front where something stands there already.
-/

namespace YiQiao

open Lib

def archiveSuffixes : List String :=
  [".zip", ".tar", ".tar.gz", ".tgz", ".tar.bz2", ".tbz2", ".tar.xz", ".txz"]

/-- `_archive_kind`. -/
def archiveKind (L : Lowers) (name : String) : Option String :=
  archiveSuffixes.find? fun suffix => suffix.toList.isSuffixOf (L.lower name).toList

/-- `is_supported_input`. -/
def isSupportedInput (L : Lowers) (name : String) : Bool :=
  decide (L.lower (suffixOf (PosixPath.parse name).name) ∈ supportedSuffixes) || (archiveKind L name).isSome

def maxImportUploadBytes : Nat := 512 * 1024 * 1024

def maxImportFileBytes : Nat := 256 * 1024 * 1024

/-- A file of the request: what its reads return until one is empty, and what a later one raises. -/
structure UploadFile where
  filename : Option String
  chunks : List Bytes
  fault : Option Raised

def UploadFile.content (upload : UploadFile) : Bytes := upload.chunks.flatten

/-- The file's name with forward slashes; a file without a name is called after its index. -/
def originalName (index : Nat) (filename : Option String) : String :=
  replaceBackslashes (match filename with
    | some name => if name = "" then "upload-" ++ toString index else name
    | none => "upload-" ++ toString index)

def uploadPath (L : Lowers) (index : Nat) (name : String) : Path :=
  safeUploadPath name ("upload-" ++ toString index ++ L.lower (suffixOf (PosixPath.parse name).name))

/-- `with_name(f"{index}-{name}")`. -/
def indexed (index : Nat) (path : Path) : Path :=
  path.dropLast ++ [toString index ++ "-" ++ path.getLastD ""]

structure UploadCounters where
  fileBytes : Nat
  totalBytes : Nat
  reserved : List Nat
deriving DecidableEq

/-- The reading loop: the bytes it writes, the counters after it, and what it raises. `reserve` sees
the sizes of all chunks so far; where the request has no `reserve_bytes` it never raises. -/
def receive (reserve : List Nat → Option Raised) (relative : String) (fault : Option Raised) (counters : UploadCounters) :
    List Bytes → Bytes × UploadCounters × Option Raised
  | [] => ([], counters, fault)
  | chunk :: chunks =>
    let counters := { counters with
      fileBytes := counters.fileBytes + chunk.length
      totalBytes := counters.totalBytes + chunk.length }
    if maxImportFileBytes < counters.fileBytes then
      ([], counters, some (.http 413 ("File is larger than 256 MB: " ++ relative)))
    else if maxImportUploadBytes < counters.totalBytes then
      ([], counters, some (.http 413 "The combined upload is larger than 512 MB."))
    else
      let counters := { counters with reserved := counters.reserved ++ [chunk.length] }
      match reserve counters.reserved with
      | some raised => ([], counters, some raised)
      | none =>
        let rest := receive reserve relative fault counters chunks
        (chunk ++ rest.1, rest.2)

structure SavedUploads where
  saved : List Path
  names : List String
  ignored : Nat
  totalBytes : Nat
  reserved : List Nat
deriving DecidableEq

def SavedUploads.start : SavedUploads := ⟨[], [], 0, 0, []⟩

/-- The body of the loop over the files. -/
def saveUpload (L : Lowers) (reserve : List Nat → Option Raised) (root : Path) (progress : SavedUploads)
    (file : UploadFile × Nat) : Extraction SavedUploads :=
  let name := originalName file.2 file.1.filename
  if isSupportedInput L name = false then pure { progress with ignored := progress.ignored + 1 }
  else do
    let relative := uploadPath L file.2 name
    let target ← .read fun disk =>
      if disk.present (root ++ relative) then indexed file.2 (root ++ relative) else root ++ relative
    mkdir target.dropLast
    let received := receive reserve ("/".intercalate relative) file.1.fault
      ⟨0, progress.totalBytes, progress.reserved⟩ file.1.chunks
    copyTo target ⟨received.1, received.2.2⟩
    pure {
      saved := progress.saved ++ [target]
      names := progress.names ++ ["/".intercalate (target.drop root.length)]
      ignored := progress.ignored
      totalBytes := received.2.1.totalBytes
      reserved := received.2.1.reserved }

/-- `_save_import_uploads`. -/
def saveImportUploads (L : Lowers) (reserve : List Nat → Option Raised) (root : Path) (uploads : List UploadFile) :
    Extraction SavedUploads := do
  mkdir root
  Effect.loop (saveUpload L reserve root) .start uploads.zipIdx

/-! ## The paths -/

theorem parse_fallback {L : Lowers} {index : Nat} {name : String} (hname : '/' ∉ name.toList) :
    PlainName ("upload-" ++ toString index ++ L.lower name) := by
  have hlist : ("upload-" ++ toString index ++ L.lower name).toList =
      "upload-".toList ++ ((toString index).toList ++ (L.lower name).toList) := by
    rw [String.toList_append, String.toList_append, List.append_assoc]
  have hlong : 7 ≤ ("upload-" ++ toString index ++ L.lower name).toList.length := by
    rw [hlist, List.length_append]
    exact Nat.le_add_right _ _
  have hshort : ∀ s : String, s.toList.length < 7 → "upload-" ++ toString index ++ L.lower name ≠ s := by
    intro s hs heq
    rw [heq] at hlong
    omega
  refine ⟨hshort _ (by decide), hshort _ (by decide), hshort _ (by decide), ?_⟩
  rw [hlist, List.mem_append, List.mem_append]
  rintro (hslash | hslash | hslash)
  · revert hslash
    decide
  · exact repr_noMark index (by decide) hslash
  · exact L.one name hname hslash

/-- A relative path that stays where it is put. -/
structure PlainPath (path : Path) : Prop where
  ne_nil : path ≠ []
  plain : ∀ part ∈ path, PlainName part

theorem noSlash_suffixOf {name : String} (h : '/' ∉ name.toList) : '/' ∉ (suffixOf name).toList := by
  rw [suffixOf]
  split
  · rw [String.toList_ofList]
    intro hslash
    rcases List.mem_cons.mp hslash with heq | hslash
    · cases heq
    · exact h (List.mem_reverse.mp ((List.takeWhile_sublist _).subset (List.mem_reverse.mp hslash)))
  · exact fun hslash => by cases hslash

theorem noSlash_name (name : String) : '/' ∉ (PosixPath.parse name).name.toList := by
  rw [PosixPath.name]
  cases hlast : (PosixPath.parse name).parts.getLast? with
  | none =>
      rw [List.getLast?_eq_none_iff.mp hlast]
      exact fun hslash => by cases hslash
  | some last =>
      rw [List.getLastD_eq_getLast?, hlast]
      exact parse_parts_one (List.mem_of_getLast? hlast)

theorem uploadPath_plain (L : Lowers) (index : Nat) (name : String) : PlainPath (uploadPath L index name) := by
  rw [uploadPath, safeUploadPath]
  cases safeMemberPath name with
  | some relative =>
      dsimp only
      rw [joinPath_plain relative.plain]
      exact ⟨relative.ne_nil, relative.plain⟩
  | none =>
      have hplain := @parse_fallback L index _ (noSlash_suffixOf (noSlash_name name))
      dsimp only
      rw [parse_plain hplain]
      refine ⟨List.cons_ne_nil _ _, fun part hpart => ?_⟩
      rw [List.mem_singleton.mp hpart]
      exact hplain

theorem indexed_toList (index : Nat) (name : String) :
    (toString index ++ "-" ++ name).toList = (toString index).toList ++ '-' :: name.toList := by
  rw [String.toList_append, String.toList_append, List.append_assoc]
  rfl

theorem indexed_plain {index : Nat} {path : Path} (h : PlainPath path) : PlainPath (indexed index path) := by
  have hmark : ∀ name : String, '-' ∈ (toString index ++ "-" ++ name).toList := by
    intro name
    rw [indexed_toList]
    exact List.mem_append_right _ List.mem_cons_self
  have hne : ∀ name s : String, '-' ∉ s.toList → toString index ++ "-" ++ name ≠ s :=
    fun name s hs heq => hs (heq ▸ hmark name)
  refine ⟨by rw [indexed]; exact List.append_ne_nil_of_right_ne_nil _ (List.cons_ne_nil _ _), fun part hpart => ?_⟩
  rw [indexed] at hpart
  rcases List.mem_append.mp hpart with hpart | hpart
  · exact h.plain part (List.dropLast_subset path hpart)
  · rw [List.mem_singleton.mp hpart]
    refine ⟨hne _ _ (by decide), hne _ _ (by decide), hne _ _ (by decide), ?_⟩
    rw [indexed_toList]
    intro hslash
    rcases List.mem_append.mp hslash with hslash | hslash
    · exact repr_noMark index (by decide) hslash
    · rcases List.mem_cons.mp hslash with heq | hslash
      · cases heq
      · have hlast : path.getLastD "" ∈ path := by
          rw [List.getLastD_eq_getLast?, List.getLast?_eq_some_getLast h.ne_nil]
          exact List.getLast_mem h.ne_nil
        exact (h.plain _ hlast).one hslash

theorem indexed_inj {index index' : Nat} {path path' : Path} (h : indexed index path = indexed index' path') :
    index = index' := by
  rw [indexed, indexed] at h
  have hlast := congrArg String.toList (List.singleton_inj.mp (List.append_inj' h rfl).2)
  rw [indexed_toList, indexed_toList] at hlast
  exact number_mark (by decide) hlast

/-! ## Collisions -/

/-- An upload that is saved: its index, its relative path and its bytes. -/
def UploadFile.saved (L : Lowers) (file : UploadFile × Nat) : Option ((Nat × Path) × Bytes) :=
  let name := originalName file.2 file.1.filename
  if isSupportedInput L name = false then none else some ((file.2, uploadPath L file.2 name), file.1.content)

def savedUploads (L : Lowers) (files : List (UploadFile × Nat)) : List ((Nat × Path) × Bytes) :=
  files.filterMap (UploadFile.saved L)

/-- Something stands at a path after uploads, the latest first: a file, or a directory above one. -/
def takenBy : List (Nat × Path) → Path → Bool
  | [], _ => false
  | (index, relative) :: earlier, path =>
    path == (if takenBy earlier relative then indexed index relative else relative) ||
      path.isPrefixOf relative.dropLast || takenBy earlier path

/-- An upload is renamed to the path that an earlier one asked for. The latest comes first. -/
def crowded : List (Nat × Path) → Bool
  | [] => false
  | (index, relative) :: earlier =>
    (takenBy earlier relative && earlier.any fun upload => upload.2 == indexed index relative) || crowded earlier

theorem takenBy_asked {uploads : List (Nat × Path)} {upload : Nat × Path} (h : upload ∈ uploads) :
    takenBy uploads upload.2 = true := by
  induction uploads with
  | nil => cases h
  | cons first uploads ih =>
      obtain ⟨index, relative⟩ := first
      rw [takenBy, Bool.or_eq_true, Bool.or_eq_true]
      rcases List.mem_cons.mp h with rfl | h
      · cases htaken : takenBy uploads relative with
        | true => exact .inr rfl
        | false => exact .inl (.inl (by simp))
      · exact .inr (ih h)

/-- The loop so far: what it saved stands on the disk, and it knows which paths are taken. -/
structure Uploaded (root : Path) (before : Disk Bytes) (done : List ((Nat × Path) × Bytes)) (next : Nat)
    (targets : List Path) (disk : Disk Bytes) : Prop where
  count : targets.length = done.length
  written : disk.written = (targets.zip (done.map Prod.snd)).reverse ++ before.written
  present : ∀ path, path ≠ [] → disk.present (root ++ path) = takenBy (done.map Prod.fst).reverse path
  asked : ∀ target ∈ targets, ∃ upload ∈ done,
    target = root ++ upload.1.2 ∨ target = root ++ indexed upload.1.1 upload.1.2
  earlier : ∀ upload ∈ done, upload.1.1 < next ∧ PlainPath upload.1.2
  distinct : targets.Nodup ↔ crowded (done.map Prod.fst).reverse = false

theorem indexed_append {index : Nat} {root path : Path} (h : path ≠ []) :
    indexed index (root ++ path) = root ++ indexed index path := by
  rw [indexed, indexed, List.dropLast_append_of_ne_nil h, List.append_assoc, List.getLastD_eq_getLast?,
    List.getLast?_append_of_ne_nil _ h, List.getLastD_eq_getLast?]

theorem dropLast_indexed {index : Nat} {path : Path} : (indexed index path).dropLast = path.dropLast := by
  rw [indexed, List.dropLast_concat]

/-- What is present once the directories of a path are made and a file is written there. -/
theorem present_saved {disk made after : Disk Bytes} {target path : Path} {bytes : Bytes}
    (hmade : made = { disk with dirs := target.dropLast.inits ++ disk.dirs })
    (hafter : after = { made with written := (target, bytes) :: made.written }) :
    after.present path = (path == target || path.isPrefixOf target.dropLast || disk.present path) := by
  subst hmade
  subst hafter
  have hfile : Disk.isFile ⟨(target, bytes) :: disk.written, target.dropLast.inits ++ disk.dirs⟩ path =
      (path == target || disk.isFile path) := by
    rw [Bool.eq_iff_iff, Bool.or_eq_true, Disk.isFile_iff, Disk.isFile_iff, List.map_cons, List.mem_cons, beq_iff_eq]
  rw [Disk.present, hfile, Disk.present, Bool.eq_iff_iff]
  simp only [Bool.or_eq_true, decide_eq_true_eq, List.mem_append, List.mem_inits, List.isPrefixOf_iff_prefix]
  tauto

theorem receive_whole {reserve : List Nat → Option Raised} {relative : String} {fault : Option Raised}
    {counters : UploadCounters} {chunks : List Bytes} (h : (receive reserve relative fault counters chunks).2.2 = none) :
    (receive reserve relative fault counters chunks).1 = chunks.flatten := by
  induction chunks generalizing counters with
  | nil => rfl
  | cons chunk chunks ih =>
      rw [receive] at h ⊢
      dsimp only at h ⊢
      split at h
      · cases h
      · rename_i hfile
        rw [if_neg hfile]
        split at h
        · cases h
        · rename_i htotal
          rw [if_neg htotal]
          split at h
          · cases h
          · exact congrArg (chunk ++ ·) (ih h)

/-- Where an upload goes. -/
def uploadTarget (root : Path) (index : Nat) (relative : Path) (disk : Disk Bytes) : Path :=
  if disk.present (root ++ relative) then indexed index (root ++ relative) else root ++ relative

section Step

variable {root relative : Path} {before disk after : Disk Bytes} {done : List ((Nat × Path) × Bytes)}
  {next index : Nat} {targets : List Path} {bytes : Bytes}

theorem Uploaded.target_eq (h : Uploaded root before done next targets disk) (hplain : PlainPath relative) :
    uploadTarget root index relative disk =
      root ++ (if takenBy (done.map Prod.fst).reverse relative then indexed index relative else relative) := by
  rw [uploadTarget, h.present relative hplain.ne_nil, indexed_append hplain.ne_nil]
  split
  · rfl
  · rfl

theorem Uploaded.mem_written (h : Uploaded root before done next targets disk) {target : Path}
    (hfresh : before.present target = false) : disk.isFile target = true ↔ target ∈ targets := by
  have hbefore : target ∉ before.written.map Prod.fst := by
    intro hmem
    rw [Disk.present, Disk.isFile_iff.mpr hmem, Bool.true_or] at hfresh
    cases hfresh
  have hzip : (targets.zip (done.map Prod.snd)).map Prod.fst = targets := by
    rw [List.map_fst_zip]
    rw [List.length_map]
    exact h.count.le
  rw [Disk.isFile_iff, h.written, List.map_append, List.map_reverse, hzip, List.mem_append, List.mem_reverse]
  exact or_iff_left hbefore

/-- A renamed upload meets a file exactly where an earlier one asked for that path. -/
theorem Uploaded.target_mem (h : Uploaded root before done next targets disk)
    (hfresh : ∀ path, path ≠ [] → before.present (root ++ path) = false) (hplain : PlainPath relative)
    (hnext : next ≤ index) (hopen : uploadTarget root index relative disk ∉ disk.dirs) :
    uploadTarget root index relative disk ∈ targets ↔
      takenBy (done.map Prod.fst).reverse relative = true ∧
        (done.map Prod.fst).reverse.any (fun upload => upload.2 == indexed index relative) = true := by
  rw [h.target_eq hplain] at hopen ⊢
  cases htaken : takenBy (done.map Prod.fst).reverse relative with
  | false =>
      rw [if_neg Bool.false_ne_true]
      refine ⟨fun hmem => absurd ?_ Bool.false_ne_true, fun hand => absurd hand.1 Bool.false_ne_true⟩
      rw [← htaken, ← h.present relative hplain.ne_nil, Disk.present,
        (h.mem_written (hfresh relative hplain.ne_nil)).mpr hmem, Bool.true_or]
  | true =>
      rw [htaken, if_pos rfl] at hopen
      rw [if_pos rfl, List.any_eq_true]
      have hindexed := (@indexed_plain index _ hplain).ne_nil
      constructor
      · intro hmem
        obtain ⟨upload, hupload, heq⟩ := h.asked _ hmem
        refine ⟨rfl, upload.1, by simpa using ⟨_, hupload⟩, ?_⟩
        rcases heq with heq | heq
        · exact beq_iff_eq.mpr (List.append_cancel_left heq).symm
        · have hindex := indexed_inj (List.append_cancel_left heq)
          have hearlier := (h.earlier upload hupload).1
          omega
      · rintro ⟨_, upload, hupload, heq⟩
        have hpresent := takenBy_asked hupload
        rw [beq_iff_eq.mp heq, ← h.present _ hindexed, Disk.present, Bool.or_eq_true, decide_eq_true_eq] at hpresent
        exact (h.mem_written (hfresh _ hindexed)).mp (hpresent.resolve_right hopen)

theorem Uploaded.step (h : Uploaded root before done next targets disk)
    (hfresh : ∀ path, path ≠ [] → before.present (root ++ path) = false) (hplain : PlainPath relative)
    (hnext : next ≤ index) {target : Path} (htarget : target = uploadTarget root index relative disk)
    (hopen : target ∉ disk.dirs)
    (hafter : after = ⟨(target, bytes) :: disk.written, target.dropLast.inits ++ disk.dirs⟩) :
    Uploaded root before (done ++ [((index, relative), bytes)]) (index + 1) (targets ++ [target]) after := by
  have hreverse : ((done ++ [((index, relative), bytes)]).map Prod.fst).reverse =
      (index, relative) :: (done.map Prod.fst).reverse := by
    rw [List.map_append, List.reverse_append]
    rfl
  have hroot := htarget.trans (h.target_eq hplain)
  constructor
  · rw [List.length_append, List.length_append, h.count]
    rfl
  · rw [hafter, List.map_append, List.zip_append (by rw [List.length_map]; exact h.count), List.reverse_append,
      List.append_assoc, ← h.written]
    rfl
  · intro path hne
    rw [present_saved rfl hafter, h.present path hne, hreverse, takenBy]
    have hparent : target.dropLast = root ++ relative.dropLast := by
      rw [hroot]
      split
      · rw [List.dropLast_append_of_ne_nil (indexed_plain hplain).ne_nil, dropLast_indexed]
      · rw [List.dropLast_append_of_ne_nil hplain.ne_nil]
    rw [hparent, hroot, Bool.eq_iff_iff]
    simp only [Bool.or_eq_true, beq_iff_eq, List.isPrefixOf_iff_prefix, List.append_cancel_left_eq,
      List.prefix_append_right_inj]
  · intro other hother
    rcases List.mem_append.mp hother with hother | hother
    · obtain ⟨upload, hupload, heq⟩ := h.asked other hother
      exact ⟨upload, List.mem_append_left _ hupload, heq⟩
    · rw [List.mem_singleton.mp hother]
      refine ⟨_, List.mem_append_right _ List.mem_cons_self, ?_⟩
      rw [hroot]
      split
      · exact .inr rfl
      · exact .inl rfl
  · intro upload hupload
    rcases List.mem_append.mp hupload with hupload | hupload
    · have hearlier := h.earlier upload hupload
      exact ⟨by omega, hearlier.2⟩
    · rw [List.mem_singleton.mp hupload]
      exact ⟨Nat.lt_succ_self index, hplain⟩
  · rw [htarget] at hopen
    have hmem := h.target_mem hfresh hplain hnext hopen
    rw [← htarget] at hmem
    rw [hreverse, crowded, Bool.or_eq_false_iff, ← h.distinct, List.nodup_append, ← Bool.not_eq_true, Bool.and_eq_true,
      ← hmem]
    constructor
    · intro hnodup
      exact ⟨fun hin => hnodup.2.2 target hin target List.mem_cons_self rfl, hnodup.1⟩
    · rintro ⟨hnew, hnodup⟩
      refine ⟨hnodup, List.nodup_singleton target, fun other hother last hlast heq => hnew ?_⟩
      rw [← List.mem_singleton.mp hlast, ← heq]
      exact hother

end Step

/-- How the body of the loop returns: the file is passed over, or it is written. -/
theorem saveUpload_ok {L : Lowers} {reserve : List Nat → Option Raised} {root : Path} {progress progress' : SavedUploads}
    {file : UploadFile × Nat} {disk disk' : Disk Bytes}
    (h : (saveUpload L reserve root progress file).run disk = (.ok progress', disk')) :
    (UploadFile.saved L file = none ∧ progress'.saved = progress.saved ∧ progress'.names = progress.names ∧
        disk' = disk) ∨
      ∃ relative target, UploadFile.saved L file = some ((file.2, relative), file.1.content) ∧ PlainPath relative ∧
        target = uploadTarget root file.2 relative disk ∧ target ∉ disk.dirs ∧
        disk' = ⟨(target, file.1.content) :: disk.written, target.dropLast.inits ++ disk.dirs⟩ ∧
        progress'.saved = progress.saved ++ [target] ∧
        progress'.names = progress.names ++ ["/".intercalate (target.drop root.length)] := by
  rw [saveUpload] at h
  rw [UploadFile.saved]
  dsimp only at h ⊢
  split at h
  · rename_i hignored
    cases h
    exact .inl ⟨if_pos hignored, rfl, rfl, rfl⟩
  · rename_i hsupported
    rw [Effect.run_bind_read, Effect.bind_ok] at h
    obtain ⟨_, made, hmkdir, h⟩ := h
    rw [Effect.bind_ok] at h
    obtain ⟨_, copied, hcopy, h⟩ := h
    cases h
    rcases @mkdir_run (List.dropLast _) disk with hrun | ⟨raised, hrun⟩
    · rw [hrun] at hmkdir
      cases hmkdir
      obtain ⟨hopen, hfault, hafter⟩ := copyTo_ok hcopy
      dsimp only at hopen hfault hafter
      rw [receive_whole hfault] at hafter
      refine .inr ⟨_, _, if_neg hsupported, uploadPath_plain L file.2 _, rfl, ?_, hafter, rfl, rfl⟩
      exact fun hmem => hopen (List.mem_append_right _ hmem)
    · rw [hrun] at hmkdir
      cases hmkdir

theorem saveImportUploads_ok {L : Lowers} {reserve : List Nat → Option Raised} {root : Path}
    {uploads : List UploadFile} {progress : SavedUploads} {disk disk' : Disk Bytes}
    (hfresh : ∀ path, path ≠ [] → disk.present (root ++ path) = false)
    (h : (saveImportUploads L reserve root uploads).run disk = (.ok progress, disk')) :
    Uploaded root disk (savedUploads L uploads.zipIdx) uploads.length progress.saved disk' ∧
      progress.names = progress.saved.map fun target => "/".intercalate (target.drop root.length) := by
  rw [saveImportUploads, Effect.bind_ok] at h
  obtain ⟨_, made, hmkdir, h⟩ := h
  have hmade : made = { disk with dirs := root.inits ++ disk.dirs } := by
    rcases @mkdir_run root disk with hrun | ⟨raised, hrun⟩
    · rw [hrun] at hmkdir
      cases hmkdir
      rfl
    · rw [hrun] at hmkdir
      cases hmkdir
  have hstart : Uploaded root disk [] 0 [] made := by
    refine ⟨rfl, by rw [hmade]; rfl, fun path hne => ?_, fun _ hmem => (by cases hmem), fun _ hmem => (by cases hmem), ?_⟩
    · have hpresent := hfresh path hne
      rw [Disk.present, Bool.or_eq_false_iff, decide_eq_false_iff_not] at hpresent
      rw [hmade, Disk.present]
      have hroot : root ++ path ∉ root.inits ++ disk.dirs := by
        rw [List.mem_append, List.mem_inits]
        rintro (hmem | hmem)
        · exact hne (List.append_right_eq_self.mp (hmem.eq_of_length_le (by simp)))
        · exact hpresent.2 hmem
      exact Bool.or_eq_false_iff.mpr ⟨hpresent.1, decide_eq_false hroot⟩
    · exact ⟨fun _ => rfl, fun _ => List.nodup_nil⟩
  rw [← @List.length_zipIdx _ uploads 0]
  refine Effect.loop_ok (I := fun done progress disk' =>
    Uploaded root disk (savedUploads L done) done.length progress.saved disk' ∧
      progress.names = progress.saved.map fun target => "/".intercalate (target.drop root.length)) h ?_ ?_
  · exact ⟨hstart, rfl⟩
  intro done file rest progress current progress' current' hfiles hsaved hrun
  obtain ⟨huploaded, hnames⟩ := hsaved
  have hindex : file.2 = done.length := by
    have hget : uploads.zipIdx[done.length]? = some file := by
      rw [hfiles, List.getElem?_append_right (Nat.le_refl _), Nat.sub_self, List.getElem?_cons_zero]
    rw [List.getElem?_zipIdx, Option.map_eq_some_iff] at hget
    obtain ⟨upload, _, rfl⟩ := hget
    exact Nat.zero_add _
  have hsnoc : savedUploads L (done ++ [file]) = savedUploads L done ++ (UploadFile.saved L file).toList := by
    rw [savedUploads, List.filterMap_append, savedUploads]
    cases hsaved : UploadFile.saved L file with
    | none => rw [List.filterMap_cons_none hsaved, List.filterMap_nil, Option.toList_none]
    | some upload => rw [List.filterMap_cons_some hsaved, List.filterMap_nil, Option.toList_some]
  rcases saveUpload_ok hrun with ⟨hnone, hsame, hsameNames, rfl⟩ |
    ⟨relative, target, hsome, hplain, htarget, hopen, hafter, hsaved, hnew⟩
  · rw [hsnoc, hnone, Option.toList_none, List.append_nil, hsame, hsameNames, List.length_append]
    refine ⟨{ huploaded with earlier := fun upload hupload => ?_ }, hnames⟩
    have hearlier := huploaded.earlier upload hupload
    exact ⟨Nat.lt_add_right 1 hearlier.1, hearlier.2⟩
  · rw [hsnoc, hsome, Option.toList_some, hsaved, hnew, hnames, List.length_append, List.map_append, hindex]
    refine ⟨huploaded.step hfresh hplain (Nat.le_refl _) ?_ hopen hafter, rfl⟩
    rw [← hindex]
    exact htarget

/-- Whatever the requests' files hold, they are written under the upload root. -/
theorem saveImportUploads_under (L : Lowers) (reserve : List Nat → Option Raised) (root : Path)
    (uploads : List UploadFile) : Effect.Within (Disk.AddsUnder root) (saveImportUploads L reserve root uploads) := by
  refine .bind (mkdir_under root root) fun _ => .loop (fun progress file _ => ?_) _
  rw [saveUpload]
  dsimp only
  split
  · exact .pure _
  · have hplain := uploadPath_plain L file.2 (originalName file.2 file.1.filename)
    intro disk
    rw [Effect.run_bind_read]
    have htarget : ∃ path, PlainPath path ∧
        (if disk.present (root ++ uploadPath L file.2 (originalName file.2 file.1.filename)) then
          indexed file.2 (root ++ uploadPath L file.2 (originalName file.2 file.1.filename))
        else root ++ uploadPath L file.2 (originalName file.2 file.1.filename)) = root ++ path := by
      split
      · exact ⟨_, indexed_plain hplain, indexed_append hplain.ne_nil⟩
      · exact ⟨_, hplain, rfl⟩
    obtain ⟨path, hpath, heq⟩ := htarget
    have hbeneath := @Path.beneath_append root path hpath.plain hpath.ne_nil
    rw [heq]
    exact Effect.Within.bind (mkdir_under _ _) (fun _ => .bind (copyTo_under hbeneath) fun _ => .pure _) disk

theorem saveImportUploads_kept_iff {L : Lowers} {reserve : List Nat → Option Raised} {root : Path}
    {uploads : List UploadFile} {progress : SavedUploads} {disk disk' : Disk Bytes}
    (hfresh : ∀ path, path ≠ [] → disk.present (root ++ path) = false)
    (h : (saveImportUploads L reserve root uploads).run disk = (.ok progress, disk')) :
    Disk.EachKept ((savedUploads L uploads.zipIdx).map Prod.snd) progress.saved disk' ↔
      crowded ((savedUploads L uploads.zipIdx).map Prod.fst).reverse = false := by
  obtain ⟨hsaved, _⟩ := saveImportUploads_ok hfresh h
  have hlength : progress.saved.length = ((savedUploads L uploads.zipIdx).map Prod.snd).length := by
    rw [List.length_map]
    exact hsaved.count
  have hkept := Disk.eachKept_iff hsaved.written
  rw [List.map_fst_zip hlength.le, List.map_snd_zip hlength.ge] at hkept
  exact hkept.trans hsaved.distinct

/-! ## Archives and uploads -/

/-- What an extraction or an upload left: only paths under the root changed, and where it returned,
each file it took is returned with its own bytes under a path of its own. -/
structure FilesKept (root : Path) (before after : Disk Bytes) (files : List Bytes) (paths : List Path) : Prop where
  contained : ∀ path, after.content path ≠ before.content path → Path.Beneath root path
  kept : Disk.EachKept files paths after

/-- Archives keep their files exactly where no two of the entries taken have one safe path, and uploads
exactly where none is renamed to a path that an earlier one asked for. -/
theorem files_kept_iff (L : Lowers) :
    (∀ limits destination displayPrefix disk,
      (∀ archive out after,
        (extractZip L limits destination displayPrefix archive).run disk = (out, after) →
        (∀ path, after.content path ≠ disk.content path → Path.Beneath destination path) ∧
        ∀ result, out = .ok result →
          (FilesKept destination disk after ((taken L limits (archive.map ZipMember.entry).members).map Prod.snd)
            (result.files.map SourceFile.path) ↔
          ((taken L limits (archive.map ZipMember.entry).members).map Prod.fst).Nodup)) ∧
      (∀ archive out after,
        (extractTar L limits destination displayPrefix archive).run disk = (out, after) →
        (∀ path, after.content path ≠ disk.content path → Path.Beneath destination path) ∧
        ∀ result, out = .ok result →
          (FilesKept destination disk after ((taken L limits (archive.map TarMember.entry).members).map Prod.snd)
            (result.files.map SourceFile.path) ↔
          ((taken L limits (archive.map TarMember.entry).members).map Prod.fst).Nodup))) ∧
    (∀ reserve root uploads disk, (∀ path, path ≠ [] → disk.present (root ++ path) = false) →
      ∀ out after, (saveImportUploads L reserve root uploads).run disk = (out, after) →
        (∀ path, after.content path ≠ disk.content path → Path.Beneath root path) ∧
        ∀ progress, out = .ok progress →
          (FilesKept root disk after ((savedUploads L uploads.zipIdx).map Prod.snd) progress.saved ↔
            crowded ((savedUploads L uploads.zipIdx).map Prod.fst).reverse = false)) := by
  have harchive : ∀ limits destination displayPrefix disk (archive : Archive ArchiveEntry) out after,
      (extractEntries L limits destination displayPrefix archive).run disk = (out, after) →
      (∀ path, after.content path ≠ disk.content path → Path.Beneath destination path) ∧
      ∀ result, out = .ok result →
        (FilesKept destination disk after ((taken L limits archive.members).map Prod.snd)
          (result.files.map SourceFile.path) ↔ ((taken L limits archive.members).map Prod.fst).Nodup) := by
    intro limits destination displayPrefix disk archive out after hrun
    have hunder := @extractEntries_under L limits destination displayPrefix archive disk
    rw [hrun] at hunder
    have hcontained := fun path => @Disk.AddsUnder.beneath _ path destination disk after hunder
    refine ⟨hcontained, ?_⟩
    rintro result rfl
    rw [← extractEntries_kept_iff hrun]
    exact ⟨FilesKept.kept, FilesKept.mk hcontained⟩
  refine ⟨fun limits destination displayPrefix disk => ⟨fun archive => ?_, fun archive => ?_⟩, ?_⟩
  · exact harchive limits destination displayPrefix disk _
  · exact harchive limits destination displayPrefix disk _
  · intro reserve root uploads disk hfresh out after hrun
    have hunder := saveImportUploads_under L reserve root uploads disk
    rw [hrun] at hunder
    have hcontained := fun path => @Disk.AddsUnder.beneath _ path root disk after hunder
    refine ⟨hcontained, ?_⟩
    rintro progress rfl
    rw [← saveImportUploads_kept_iff hfresh hrun]
    exact ⟨FilesKept.kept, FilesKept.mk hcontained⟩

/-- Lowering of names in lower case. -/
def lowerNames : Lowers := ⟨id, fun _ h => h⟩

def zipText (name : String) (bytes : Bytes) : ZipMember where
  filename := name
  externalAttr := 0
  fileSize := bytes.length
  opened := .ok ⟨bytes, none⟩
  delivers source h := by
    cases h
    exact Nat.le_refl _

def uploadText (name : String) (bytes : Bytes) : UploadFile := ⟨some name, [bytes], none⟩

def roomyLimits : ExtractLimits := ⟨10, 10, 10⟩

theorem empty_fresh (root path : Path) (_ : path ≠ []) : (Disk.empty : Disk Bytes).present (root ++ path) = false := rfl

def twoNames : Archive ZipMember := ⟨none, [zipText "a.md" [1], zipText "b.md" [2]], none⟩

def sameNames : List UploadFile := [uploadText "a.md" [1], uploadText "a.md" [2]]

/-- The disk after two files in one directory. -/
def twoFiles (root first second : String) : Disk Bytes :=
  ⟨[([root, second], [2]), ([root, first], [1])], [[], [root], [], [root], [], [root]]⟩

theorem two_names_kept :
    FilesKept ["out"] .empty (twoFiles "out" "a.md" "b.md") [[1], [2]] [["out", "a.md"], ["out", "b.md"]] ∧
      FilesKept ["in"] .empty (twoFiles "in" "a.md" "1-a.md") [[1], [2]] [["in", "a.md"], ["in", "1-a.md"]] := by
  have harchive := ((files_kept_iff lowerNames).1 roomyLimits ["out"] "chats.zip" .empty).1 twoNames
    (.ok ⟨[⟨["out", "a.md"], "chats.zip!/a.md"⟩, ⟨["out", "b.md"], "chats.zip!/b.md"⟩], 0, []⟩)
    (twoFiles "out" "a.md" "b.md") rfl
  have huploads := (files_kept_iff lowerNames).2 (fun _ => none) ["in"] sameNames .empty (empty_fresh ["in"])
    (.ok ⟨[["in", "a.md"], ["in", "1-a.md"]], ["a.md", "1-a.md"], 0, 2, [1, 1]⟩) (twoFiles "in" "a.md" "1-a.md") rfl
  exact ⟨(harchive.2 _ rfl).mpr (by decide), (huploads.2 _ rfl).mpr (by decide)⟩

/-- `./b.md` and `b.md` are one path of an archive, and the third file is saved over the first. -/
theorem overwritten_files :
    (∃ result after, (extractZip lowerNames roomyLimits ["out"] "chats.zip"
        ⟨none, [zipText "b.md" [1], zipText "./b.md" [2]], none⟩).run .empty = (.ok result, after) ∧
      ¬ FilesKept ["out"] .empty after [[1], [2]] (result.files.map SourceFile.path)) ∧
    ∃ progress after, (saveImportUploads lowerNames (fun _ => none) ["in"]
        [uploadText "2-b.md" [1], uploadText "b.md" [2], uploadText "b.md" [3]]).run .empty = (.ok progress, after) ∧
      ¬ FilesKept ["in"] .empty after [[1], [2], [3]] progress.saved :=
  ⟨⟨_, _, rfl, fun h => absurd h.kept.distinct (by decide)⟩, ⟨_, _, rfl, fun h => absurd h.kept.distinct (by decide)⟩⟩

end YiQiao
