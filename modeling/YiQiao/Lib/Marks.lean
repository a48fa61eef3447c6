import Mathlib.Data.List.Basic
import Mathlib.Data.Nat.Digits.Defs

/-!
# Marks

Texts put together with a mark between them come apart at the mark, where the parts do not hold it.
-/

namespace YiQiao.Lib

theorem first_mark {α : Type} {mark : α} {front front' rest rest' : List α} (hfront : mark ∉ front)
    (hfront' : mark ∉ front') (h : front ++ mark :: rest = front' ++ mark :: rest') :
    front = front' ∧ rest = rest' := by
  induction front generalizing front' with
  | nil => cases front' with
    | nil => exact ⟨rfl, (List.cons.inj h).2⟩
    | cons c front' => exact absurd ((List.cons.inj h).1 ▸ List.mem_cons_self) hfront'
  | cons c front ih => cases front' with
    | nil => exact absurd ((List.cons.inj h).1 ▸ List.mem_cons_self) hfront
    | cons c' front' =>
        obtain ⟨rfl, hrest⟩ := List.cons.inj h
        obtain ⟨rfl, htail⟩ := ih (fun hc => hfront (List.mem_cons_of_mem _ hc))
          (fun hc => hfront' (List.mem_cons_of_mem _ hc)) hrest
        exact ⟨rfl, htail⟩

theorem last_mark {α : Type} {mark : α} {front front' rest rest' : List α} (hrest : mark ∉ rest)
    (hrest' : mark ∉ rest') (h : front ++ mark :: rest = front' ++ mark :: rest') : front = front' ∧ rest = rest' := by
  have hreverse := congrArg List.reverse h
  rw [List.reverse_append, List.reverse_append, List.reverse_cons, List.reverse_cons, List.append_assoc,
    List.append_assoc] at hreverse
  obtain ⟨hright, hleft⟩ := first_mark (fun hc => hrest (List.mem_reverse.mp hc))
    (fun hc => hrest' (List.mem_reverse.mp hc)) hreverse
  exact ⟨List.reverse_injective hleft, List.reverse_injective hright⟩

/-! ## Texts joined by marks -/

section

variable {α : Type} {mark : α}

theorem intercalate_marked (part : List α) (parts : List (List α)) :
    mark :: [mark].intercalate (part :: parts) = (part :: parts).flatMap (mark :: ·) := by
  induction parts generalizing part with
  | nil => simp
  | cons next parts ih =>
      rw [List.intercalate_cons_cons, List.flatMap_cons, ← ih next]
      simp

/-- Two parts joined by the mark stand for one. -/
theorem intercalate_joined (first second : List α) (parts : List (List α)) :
    [mark].intercalate ((first ++ mark :: second) :: parts) = [mark].intercalate (first :: second :: parts) := by
  cases parts with
  | nil => simp
  | cons part parts => simp

theorem intercalate_injective {parts parts' : List (List α)} (h : ∀ part ∈ parts, part ≠ [] ∧ mark ∉ part)
    (h' : ∀ part ∈ parts', part ≠ [] ∧ mark ∉ part) (heq : [mark].intercalate parts = [mark].intercalate parts') :
    parts = parts' := by
  induction parts generalizing parts' with
  | nil =>
      cases parts' with
      | nil => rfl
      | cons part' parts' =>
          cases parts' with
          | nil => simp at heq; exact absurd heq (h' part' List.mem_cons_self).1
          | cons next parts' => simp at heq
  | cons part parts ih =>
      cases parts' with
      | nil =>
          cases parts with
          | nil => simp at heq; exact absurd heq (h part List.mem_cons_self).1
          | cons next parts => simp at heq
      | cons part' parts' =>
          have hpart := (h part List.mem_cons_self).2
          have hpart' := (h' part' List.mem_cons_self).2
          cases parts with
          | nil =>
              cases parts' with
              | nil => simpa using heq
              | cons next' parts' =>
                  rw [List.intercalate_singleton, List.intercalate_cons_cons] at heq
                  exact absurd (by rw [heq]; simp) hpart
          | cons next parts =>
              cases parts' with
              | nil =>
                  rw [List.intercalate_singleton, List.intercalate_cons_cons] at heq
                  exact absurd (by rw [← heq]; simp) hpart'
              | cons next' parts' =>
                  rw [List.intercalate_cons_cons, List.intercalate_cons_cons, List.append_assoc,
                    List.append_assoc] at heq
                  obtain ⟨rfl, hrest⟩ := first_mark hpart hpart' heq
                  rw [ih (fun p hp => h p (List.mem_cons_of_mem _ hp)) (fun p hp => h' p (List.mem_cons_of_mem _ hp))
                    hrest]

/-- What stands between two marks is one of the parts. -/
theorem mem_of_between {parts : List (List α)} {x pre post : List α} (hx : mark ∉ x)
    (hparts : ∀ part ∈ parts, mark ∉ part)
    (h : parts.flatMap (mark :: ·) ++ [mark] = pre ++ mark :: (x ++ mark :: post)) : x ∈ parts := by
  induction parts generalizing pre with
  | nil =>
      have hlength := congrArg List.length h
      simp at hlength
      omega
  | cons part parts ih =>
      have hpart := hparts part List.mem_cons_self
      have hrest := fun part hmem => hparts part (List.mem_cons_of_mem _ hmem)
      obtain ⟨after, hafter⟩ : ∃ after, parts.flatMap (mark :: ·) ++ [mark] = mark :: after := by
        cases parts with
        | nil => exact ⟨[], rfl⟩
        | cons next parts => exact ⟨_, rfl⟩
      rw [List.flatMap_cons, List.append_assoc, List.cons_append] at h
      cases pre with
      | nil =>
          obtain ⟨_, h⟩ := List.cons.inj h
          rw [hafter] at h
          rw [(first_mark hpart hx h).1]
          exact List.mem_cons_self
      | cons c pre =>
          obtain ⟨_, h⟩ := List.cons.inj h
          rcases List.append_eq_append_iff.mp h with ⟨left, hpre, hleft⟩ | ⟨left, hfront, hleft⟩
          · exact List.mem_cons_of_mem _ (ih hrest hleft)
          · cases left with
            | nil => exact List.mem_cons_of_mem _ (@ih [] hrest hleft.symm)
            | cons d left =>
                obtain ⟨rfl, _⟩ := List.cons.inj hleft
                exact absurd (hfront ▸ List.mem_append_right _ List.mem_cons_self) hpart

theorem between_of_mem {parts : List (List α)} {x : List α} (h : x ∈ parts) :
    ∃ pre post, parts.flatMap (mark :: ·) ++ [mark] = pre ++ (mark :: (x ++ mark :: post)) := by
  obtain ⟨before, after, rfl⟩ := List.append_of_mem h
  cases after with
  | nil => exact ⟨before.flatMap (mark :: ·), [], by simp⟩
  | cons next after => exact ⟨before.flatMap (mark :: ·), next ++ (after.flatMap (mark :: ·) ++ [mark]), by simp⟩

end

/-! ## Numbers -/

theorem toDigits_digits {n : Nat} {c : Char} (h : c ∈ Nat.toDigits 10 n) : c.isDigit = true :=
  Nat.isDigit_of_mem_toDigits (by decide) (by decide) h

theorem toDigits_injective {n n' : Nat} (h : Nat.toDigits 10 n = Nat.toDigits 10 n') : n = n' := by
  rw [← @Nat.ofDigitChars_ten_toDigits n, h, Nat.ofDigitChars_ten_toDigits]

theorem repr_toList (n : Nat) : (toString n).toList = Nat.toDigits 10 n := by
  rw [Nat.toString_eq_repr, Nat.repr, String.toList_ofList]

theorem repr_noMark (n : Nat) {c : Char} (h : c.isDigit = false) : c ∉ (toString n).toList := by
  rw [repr_toList]
  intro hmem
  rw [toDigits_digits hmem] at h
  cases h

/-- A number before a mark. -/
theorem number_mark {n n' : Nat} {mark : Char} {rest rest' : List Char} (hmark : mark.isDigit = false)
    (h : (toString n).toList ++ mark :: rest = (toString n').toList ++ mark :: rest') : n = n' := by
  obtain ⟨hnumber, _⟩ := first_mark (repr_noMark n hmark) (repr_noMark n' hmark) h
  rw [repr_toList, repr_toList] at hnumber
  exact toDigits_injective hnumber

end YiQiao.Lib
