import Mathlib.Data.List.Infix
import Mathlib.Data.List.Basic
import Mathlib.Data.List.Forall2
import Mathlib.Data.List.Nodup
import Mathlib.Order.Defs.Unbundled

/-!
# Disks

A file tree as the history of what was written, newest first, and the directories made. A path is
the list of its components under `/`. Writing at a path hides what was written there before.
-/

namespace YiQiao.Lib

abbrev Path := List String

instance : LawfulBEq Path := inferInstance

/-- The path with `..` followed upwards. -/
def Path.resolve (path : Path) : Path :=
  path.foldl (fun base part => if part = ".." then base.dropLast else if part = "." then base else base ++ [part]) []

/-- Strictly under a directory, after resolution. -/
structure Path.Beneath (root path : Path) : Prop where
  inside : root.resolve <+: path.resolve
  proper : root.resolve.length < path.resolve.length

/-- A component that names an entry of its directory. -/
structure PlainName (part : String) : Prop where
  ne_empty : part ≠ ""
  ne_dot : part ≠ "."
  ne_dots : part ≠ ".."
  one : '/' ∉ part.toList

theorem Path.resolve_append {root parts : Path} (h : ∀ part ∈ parts, PlainName part) :
    Path.resolve (root ++ parts) = root.resolve ++ parts := by
  induction parts using List.reverseRecOn with
  | nil => rw [List.append_nil, List.append_nil]
  | append_singleton parts part ih =>
      have hpart := h part (by simp)
      rw [← List.append_assoc, Path.resolve, List.foldl_append]
      rw [Path.resolve] at ih
      rw [ih fun part hmem => h part (by simp [hmem]), List.foldl_cons, List.foldl_nil, if_neg hpart.ne_dots,
        if_neg hpart.ne_dot, List.append_assoc]

theorem Path.beneath_append {root parts : Path} (h : ∀ part ∈ parts, PlainName part) (hne : parts ≠ []) :
    Path.Beneath root (root ++ parts) := by
  have hlength := List.length_pos_of_ne_nil hne
  constructor
  · rw [Path.resolve_append h]
    exact List.prefix_append _ _
  · rw [Path.resolve_append h, List.length_append]
    omega

structure Disk (β : Type) where
  written : List (Path × β)
  dirs : List Path
deriving DecidableEq

namespace Disk

variable {β : Type}

def empty : Disk β := ⟨[], []⟩

def content (disk : Disk β) (path : Path) : Option β := disk.written.lookup path

def isFile (disk : Disk β) (path : Path) : Bool := (disk.content path).isSome

/-- `Path.exists`. -/
def present (disk : Disk β) (path : Path) : Bool := disk.isFile path || decide (path ∈ disk.dirs)

/-- `Path.mkdir(parents=True, exist_ok=True)`: it fails where a file stands in the way. -/
def makeDirs (disk : Disk β) (path : Path) : Option (Disk β) :=
  if path.inits.any disk.isFile then none else some { disk with dirs := path.inits ++ disk.dirs }

/-- `Path.open("wb")` in a directory that exists, and the bytes written there. -/
def write (disk : Disk β) (path : Path) (bytes : β) : Option (Disk β) :=
  if path ∈ disk.dirs then none else some { disk with written := (path, bytes) :: disk.written }

variable {disk disk' : Disk β} {path other : Path} {bytes : β}

theorem isFile_iff : disk.isFile path = true ↔ path ∈ disk.written.map Prod.fst := by
  rw [isFile, content, Option.isSome_iff_ne_none, ne_eq, List.lookup_eq_none_iff, List.mem_map]
  push Not
  constructor
  · rintro ⟨entry, hentry, heq⟩
    exact ⟨entry, hentry, (by simpa using heq : path = entry.1).symm⟩
  · rintro ⟨entry, hentry, rfl⟩
    exact ⟨entry, hentry, by simp⟩

theorem makeDirs_some (h : disk.makeDirs path = some disk') :
    path.inits.any disk.isFile = false ∧ disk' = { disk with dirs := path.inits ++ disk.dirs } := by
  rw [makeDirs] at h
  split at h
  · cases h
  · rename_i hfree
    exact ⟨by simpa using hfree, (Option.some.inj h).symm⟩

theorem write_some (h : disk.write path bytes = some disk') :
    path ∉ disk.dirs ∧ disk' = { disk with written := (path, bytes) :: disk.written } := by
  rw [write] at h
  split at h
  · cases h
  · rename_i hfree
    exact ⟨hfree, (Option.some.inj h).symm⟩

theorem content_write (h : disk.write path bytes = some disk') :
    disk'.content other = if other = path then some bytes else disk.content other := by
  obtain ⟨_, rfl⟩ := write_some h
  rw [content, List.lookup_cons]
  by_cases heq : other = path
  · rw [if_pos heq, heq, beq_self_eq_true]
  · have hbeq : (other == path) = false := by simpa using heq
    rw [if_neg heq, hbeq, content]

theorem content_makeDirs (h : disk.makeDirs path = some disk') : disk'.content other = disk.content other := by
  obtain ⟨_, rfl⟩ := makeDirs_some h
  rfl

/-! ## What was added -/

/-- Every new write is strictly under a root. -/
def AddsUnder (root : Path) (before after : Disk β) : Prop :=
  ∃ news, after.written = news ++ before.written ∧ ∀ file ∈ news, Path.Beneath root file.1

instance (root : Path) : Std.Refl (AddsUnder (β := β) root) where
  refl _ := ⟨[], rfl, fun _ hfile => by cases hfile⟩

instance (root : Path) : IsTrans (Disk β) (AddsUnder root) where
  trans _ _ _ := by
    rintro ⟨news, hnews, hunder⟩ ⟨news', hnews', hunder'⟩
    refine ⟨news' ++ news, by rw [hnews', hnews, List.append_assoc], fun file hfile => ?_⟩
    rcases List.mem_append.mp hfile with hfile | hfile
    · exact hunder' file hfile
    · exact hunder file hfile

/-- Nothing that was written is taken back. -/
def Extends (before after : Disk β) : Prop := ∃ news, after.written = news ++ before.written

instance : Std.Refl (Extends (β := β)) where
  refl _ := ⟨[], rfl⟩

instance : IsTrans (Disk β) Extends where
  trans _ _ _ := by
    rintro ⟨news, hnews⟩ ⟨news', hnews'⟩
    exact ⟨news' ++ news, by rw [hnews', hnews, List.append_assoc]⟩

theorem AddsUnder.extends {root : Path} {before after : Disk β} (h : AddsUnder root before after) :
    Extends before after := by
  obtain ⟨news, hnews, _⟩ := h
  exact ⟨news, hnews⟩

/-- A path whose content changed is strictly under the root. -/
theorem AddsUnder.beneath {root : Path} {before after : Disk β} (h : AddsUnder root before after)
    (hne : after.content path ≠ before.content path) : Path.Beneath root path := by
  obtain ⟨news, hnews, hunder⟩ := h
  by_cases hmem : path ∈ news.map Prod.fst
  · obtain ⟨file, hfile, rfl⟩ := List.mem_map.mp hmem
    exact hunder file hfile
  · refine absurd ?_ hne
    have hnone : news.lookup path = none := List.lookup_eq_none_iff.mpr fun file hfile => by
      simpa using fun heq : path = file.1 => hmem (List.mem_map.mpr ⟨file, hfile, heq.symm⟩)
    rw [content, hnews, List.lookup_append, hnone, Option.none_or, content]

/-- Each file written is found at its path with its own bytes, and no two paths are one. -/
structure EachKept (files : List β) (paths : List Path) (disk : Disk β) : Prop where
  own : List.Forall₂ (fun bytes path => disk.content path = some bytes) files paths
  distinct : paths.Nodup

theorem lookup_of_nodup {files : List (Path × β)} (h : (files.map Prod.fst).Nodup) {file : Path × β}
    (hfile : file ∈ files) : files.lookup file.1 = some file.2 := by
  induction files with
  | nil => cases hfile
  | cons first files ih =>
      rw [List.map_cons, List.nodup_cons] at h
      rw [List.lookup_cons]
      rcases List.mem_cons.mp hfile with rfl | hfile
      · rw [beq_self_eq_true]
      · have hne : (file.1 == first.1) = false := by
          simpa using fun heq : file.1 = first.1 => h.1 (List.mem_map.mpr ⟨file, hfile, heq⟩)
        rw [hne]
        exact ih h.2 hfile

/-- Files written one after the other are all kept where no path is written twice. -/
theorem eachKept_iff {files rest : List (Path × β)} (h : disk.written = files.reverse ++ rest) :
    EachKept (files.map Prod.snd) (files.map Prod.fst) disk ↔ (files.map Prod.fst).Nodup := by
  refine ⟨EachKept.distinct, fun hnodup => ⟨?_, hnodup⟩⟩
  have hreverse : (files.reverse.map Prod.fst).Nodup := by
    rw [List.map_reverse]
    exact List.nodup_reverse.mpr hnodup
  rw [List.forall₂_map_left_iff, List.forall₂_map_right_iff, List.forall₂_same]
  intro file hfile
  rw [content, h, List.lookup_append, lookup_of_nodup hreverse (List.mem_reverse.mpr hfile), Option.some_or]

end Disk

end YiQiao.Lib
