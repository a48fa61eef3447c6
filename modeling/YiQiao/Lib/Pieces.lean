import Mathlib.Data.List.Infix

/-!
# Pieces

A text that is put together from pieces, each of which stands in one of some sources.
-/

namespace YiQiao.Lib

variable {α : Type}

/-- The text is made of pieces of the sources. -/
def PiecedFrom (source : List α → Prop) (text : List α) : Prop :=
  ∃ pieces : List (List α), pieces.flatten = text ∧ ∀ piece ∈ pieces, ∃ whole, source whole ∧ piece <:+: whole

variable {source source' : List α → Prop} {text text' : List α}

theorem PiecedFrom.of_part {whole : List α} (hsource : source whole) (h : text <:+: whole) : PiecedFrom source text :=
  ⟨[text], by simp, by simpa using ⟨whole, hsource, h⟩⟩

theorem PiecedFrom.nil : PiecedFrom source [] := ⟨[], rfl, by simp⟩

theorem PiecedFrom.append (h : PiecedFrom source text) (h' : PiecedFrom source text') : PiecedFrom source (text ++ text') := by
  obtain ⟨pieces, rfl, hpieces⟩ := h
  obtain ⟨pieces', rfl, hpieces'⟩ := h'
  refine ⟨pieces ++ pieces', List.flatten_append, ?_⟩
  intro piece hpiece
  rcases List.mem_append.mp hpiece with hpiece | hpiece
  · exact hpieces piece hpiece
  · exact hpieces' piece hpiece

theorem PiecedFrom.flatten {texts : List (List α)} (h : ∀ text ∈ texts, PiecedFrom source text) :
    PiecedFrom source texts.flatten := by
  induction texts with
  | nil => exact .nil
  | cons text texts ih =>
    rw [List.flatten_cons]
    exact (h text List.mem_cons_self).append (ih fun t ht => h t (List.mem_cons_of_mem _ ht))

theorem PiecedFrom.take (h : PiecedFrom source text) (n : Nat) : PiecedFrom source (text.take n) := by
  obtain ⟨pieces, rfl, hpieces⟩ := h
  induction pieces generalizing n with
  | nil =>
    rw [List.flatten_nil, List.take_nil]
    exact .nil
  | cons piece pieces ih =>
    obtain ⟨whole, hwhole, hpiece⟩ := hpieces piece List.mem_cons_self
    rw [List.flatten_cons, List.take_append]
    exact (PiecedFrom.of_part hwhole ((List.take_prefix n piece).isInfix.trans hpiece)).append
      (ih _ fun p hp => hpieces p (List.mem_cons_of_mem _ hp))

theorem PiecedFrom.drop (h : PiecedFrom source text) (n : Nat) : PiecedFrom source (text.drop n) := by
  obtain ⟨pieces, rfl, hpieces⟩ := h
  induction pieces generalizing n with
  | nil =>
    rw [List.flatten_nil, List.drop_nil]
    exact .nil
  | cons piece pieces ih =>
    obtain ⟨whole, hwhole, hpiece⟩ := hpieces piece List.mem_cons_self
    rw [List.flatten_cons, List.drop_append]
    exact (PiecedFrom.of_part hwhole ((List.drop_suffix n piece).isInfix.trans hpiece)).append
      (ih _ fun p hp => hpieces p (List.mem_cons_of_mem _ hp))

/-- What stands in a text is made of the same sources. -/
theorem PiecedFrom.part (h : PiecedFrom source text) (hpart : text' <:+: text) : PiecedFrom source text' := by
  obtain ⟨before, after, rfl⟩ := hpart
  have hsub := (h.drop before.length).take text'.length
  rwa [List.append_assoc, List.drop_left, List.take_left] at hsub

theorem PiecedFrom.bind (h : PiecedFrom source text) (hsource : ∀ whole, source whole → PiecedFrom source' whole) :
    PiecedFrom source' text := by
  obtain ⟨pieces, rfl, hpieces⟩ := h
  refine PiecedFrom.flatten fun piece hpiece => ?_
  obtain ⟨whole, hwhole, hpart⟩ := hpieces piece hpiece
  exact (hsource whole hwhole).part hpart

end YiQiao.Lib
