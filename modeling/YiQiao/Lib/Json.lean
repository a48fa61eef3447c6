import Mathlib.Data.List.Sort
import YiQiao.Lib.Dict

/-!
# JSON texts

JSON values as texts, with a blank after every comma and colon and the fields of an object in the order of their keys.
A text belongs to one value only.
-/

namespace YiQiao.Lib

inductive Json where
  | null
  | bool (b : Bool)
  | number (token : List Char)
  | str (s : List Char)
  | arr (items : List Json)
  | obj (fields : List (String × Json))

/-! ## Strings -/

/-- The letter that stands for a character behind a backslash. -/
def shortEscapes : List (Char × Char) :=
  [('"', '"'), ('\\', '\\'), ('n', '\n'), ('r', '\r'), ('t', '\t'), ('b', Char.ofNat 8), ('f', Char.ofNat 12)]

def hexDigits : List Char := "0123456789abcdef".toList

def hexDigit (n : Nat) : Char := hexDigits.getD n '0'

def hexValue (c : Char) : Nat := hexDigits.idxOf c

def escapeChar (c : Char) : List Char :=
  match shortEscapes.find? fun e => e.2 = c with
  | some e => ['\\', e.1]
  | none => if c.toNat < 32 then ['\\', 'u', '0', '0', hexDigit (c.toNat / 16), hexDigit (c.toNat % 16)] else [c]

def quote (s : List Char) : List Char := '"' :: (s.flatMap escapeChar ++ ['"'])

/-- The first character of a string's inside, and the rest. -/
def unescape : List Char → Option (Char × List Char)
  | '\\' :: 'u' :: _ :: _ :: a :: b :: rest => some (Char.ofNat (16 * hexValue a + hexValue b), rest)
  | c :: rest =>
      if c = '\\' then rest.head?.bind fun d => (shortEscapes.lookup d).map fun e => (e, rest.tail) else some (c, rest)
  | [] => none

/-! ## Values -/

def isNumberChar (c : Char) : Bool := c.isDigit || c ∈ "+-.eEaNInfity".toList

/-- The text of a number. -/
structure IsNumber (token : List Char) : Prop where
  chars : ∀ c ∈ token, isNumberChar c = true
  starts : ∃ c rest, token = c :: rest ∧ (c.isDigit = true ∨ c = '-' ∨ c = 'N' ∨ c = 'I')

mutual
def Json.render : Json → List Char
  | .null => ['n', 'u', 'l', 'l']
  | .bool true => ['t', 'r', 'u', 'e']
  | .bool false => ['f', 'a', 'l', 's', 'e']
  | .number token => token
  | .str s => quote s
  | .arr items => '[' :: Json.renderItems true items
  | .obj fields => '{' :: Json.renderFields true fields

def Json.renderItems (first : Bool) : List Json → List Char
  | [] => [']']
  | v :: vs => (if first then [] else [',', ' ']) ++ (v.render ++ Json.renderItems false vs)

def Json.renderFields (first : Bool) : List (String × Json) → List Char
  | [] => ['}']
  | (key, v) :: fields =>
      (if first then [] else [',', ' ']) ++ (quote key.toList ++ (':' :: ' ' :: (v.render ++ Json.renderFields false fields)))
end

mutual
/-- Every number inside is the text of one. -/
def Json.Valid : Json → Prop
  | .number token => IsNumber token
  | .arr items => Json.ValidItems items
  | .obj fields => Json.ValidFields fields
  | _ => True

def Json.ValidItems : List Json → Prop
  | [] => True
  | v :: vs => v.Valid ∧ Json.ValidItems vs

def Json.ValidFields : List (String × Json) → Prop
  | [] => True
  | (_, v) :: fields => v.Valid ∧ Json.ValidFields fields
end

/-! ## One text, one string -/

theorem hexValue_hexDigit : ∀ n < 32, 16 * hexValue (hexDigit (n / 16)) + hexValue (hexDigit (n % 16)) = n := by
  decide

theorem shortEscapes_lookup : ∀ e ∈ shortEscapes, e.1 ≠ 'u' ∧ shortEscapes.lookup e.1 = some e.2 := by
  decide

theorem unescape_escapeChar (c : Char) (rest : List Char) : unescape (escapeChar c ++ rest) = some (c, rest) := by
  unfold escapeChar
  cases hfind : shortEscapes.find? fun e => e.2 = c with
  | some e =>
      obtain ⟨hletter, hlookup⟩ := shortEscapes_lookup e (List.mem_of_find?_eq_some hfind)
      have hchar : e.2 = c := by simpa using List.find?_some hfind
      dsimp only [List.cons_append, List.nil_append]
      rw [unescape]
      · simp [hlookup, hchar]
      · intro _ _ a b rest' _ heq
        exact absurd (List.cons.inj heq).1 hletter
  | none =>
      dsimp only
      split
      · rename_i hcontrol
        dsimp only [List.cons_append, List.nil_append]
        rw [unescape, hexValue_hexDigit c.toNat hcontrol, Char.ofNat_toNat]
      · have hplain : c ≠ '\\' := by
          rintro rfl
          revert hfind
          decide
        dsimp only [List.cons_append, List.nil_append]
        rw [unescape, if_neg hplain]
        intro _ _ a b rest' heq
        exact absurd heq hplain

theorem escapeChar_head (c : Char) : ∃ first rest, escapeChar c = first :: rest ∧ first ≠ '"' := by
  unfold escapeChar
  cases hfind : shortEscapes.find? fun e => e.2 = c with
  | some e => exact ⟨_, _, rfl, by decide⟩
  | none =>
      dsimp only
      split
      · exact ⟨_, _, rfl, by decide⟩
      · refine ⟨c, [], rfl, ?_⟩
        rintro rfl
        revert hfind
        decide

theorem inside_unique {s t r r' : List Char}
    (h : s.flatMap escapeChar ++ '"' :: r = t.flatMap escapeChar ++ '"' :: r') : s = t ∧ r = r' := by
  induction s generalizing t with
  | nil => cases t with
    | nil => exact ⟨rfl, List.cons.inj h |>.2⟩
    | cons d ds =>
        obtain ⟨first, rest, hescape, hne⟩ := escapeChar_head d
        rw [List.flatMap_nil, List.flatMap_cons, hescape] at h
        exact absurd (List.cons.inj h).1.symm hne
  | cons c cs ih => cases t with
    | nil =>
        obtain ⟨first, rest, hescape, hne⟩ := escapeChar_head c
        rw [List.flatMap_nil, List.flatMap_cons, hescape] at h
        exact absurd (List.cons.inj h).1 hne
    | cons d ds =>
        rw [List.flatMap_cons, List.flatMap_cons, List.append_assoc, List.append_assoc] at h
        have hread := congrArg unescape h
        rw [unescape_escapeChar, unescape_escapeChar] at hread
        obtain ⟨rfl, hrest⟩ := Prod.mk.inj (Option.some.inj hread)
        obtain ⟨rfl, hr⟩ := ih hrest
        exact ⟨rfl, hr⟩

theorem quote_unique {s t r r' : List Char} (h : quote s ++ r = quote t ++ r') : s = t ∧ r = r' := by
  have hinside : s.flatMap escapeChar ++ ['"'] ++ r = t.flatMap escapeChar ++ ['"'] ++ r' := (List.cons.inj h).2
  rw [List.append_assoc, List.append_assoc] at hinside
  exact inside_unique hinside

/-! ## One text, one value -/

/-- Which kind of value starts with the character. -/
def kindOf (c : Char) : Nat :=
  if c = 'n' then 0 else if c = 't' then 1 else if c = 'f' then 2 else if c = '"' then 3 else if c = '[' then 4
  else if c = '{' then 5 else if isNumberChar c then 6 else 7

def Json.kind : Json → Nat
  | .null => 0
  | .bool true => 1
  | .bool false => 2
  | .str _ => 3
  | .arr _ => 4
  | .obj _ => 5
  | .number _ => 6

theorem render_head {v : Json} (hv : v.Valid) : ∃ c rest, v.render = c :: rest ∧ kindOf c = v.kind := by
  cases v with
  | null => exact ⟨_, _, rfl, by decide⟩
  | bool b =>
      cases b with
      | true => exact ⟨_, _, rfl, by decide⟩
      | false => exact ⟨_, _, rfl, by decide⟩
  | number token =>
      obtain ⟨hchars, c, rest, rfl, hstart⟩ := hv
      refine ⟨c, rest, rfl, ?_⟩
      have hnumber := hchars c List.mem_cons_self
      rcases hstart with hdigit | rfl | rfl | rfl
      · have hne : ∀ d : Char, d.isDigit = false → c ≠ d := by
          rintro d hd rfl
          rw [hdigit] at hd
          cases hd
        rw [kindOf, if_neg (hne _ (by decide)), if_neg (hne _ (by decide)), if_neg (hne _ (by decide)),
          if_neg (hne _ (by decide)), if_neg (hne _ (by decide)), if_neg (hne _ (by decide)), if_pos hnumber]
        rfl
      · rfl
      · rfl
      · rfl
  | str s => exact ⟨_, _, rfl, rfl⟩
  | arr items => exact ⟨_, _, rfl, rfl⟩
  | obj fields => exact ⟨_, _, rfl, rfl⟩

/-- A number is over where the text goes on like this. -/
def Stops (rest : List Char) : Prop := ∀ c tail, rest = c :: tail → isNumberChar c = false

theorem stops_cons {c : Char} {tail : List Char} (h : isNumberChar c = false) : Stops (c :: tail) := by
  intro c' tail' heq
  cases heq
  exact h

theorem number_unique {t t' r r' : List Char} (ht : ∀ c ∈ t, isNumberChar c = true)
    (ht' : ∀ c ∈ t', isNumberChar c = true) (hr : Stops r) (hr' : Stops r') (h : t ++ r = t' ++ r') :
    t = t' ∧ r = r' := by
  induction t generalizing t' with
  | nil => cases t' with
    | nil => exact ⟨rfl, h⟩
    | cons d ds =>
        have hstop := hr d (ds ++ r') h
        rw [ht' d List.mem_cons_self] at hstop
        cases hstop
  | cons c cs ih => cases t' with
    | nil =>
        have hstop := hr' c (cs ++ r) h.symm
        rw [ht c List.mem_cons_self] at hstop
        cases hstop
    | cons d ds =>
        obtain ⟨rfl, hrest⟩ := List.cons.inj h
        obtain ⟨rfl, hr⟩ := ih (fun c hc => ht c (List.mem_cons_of_mem _ hc))
          (fun c hc => ht' c (List.mem_cons_of_mem _ hc)) hrest
        exact ⟨rfl, hr⟩

theorem same_kind {v w : Json} (hv : v.Valid) (hw : w.Valid) {r r' : List Char} (h : v.render ++ r = w.render ++ r') :
    v.kind = w.kind := by
  obtain ⟨c, rest, hc, hkind⟩ := render_head hv
  obtain ⟨d, rest', hd, hkind'⟩ := render_head hw
  rw [hc, hd] at h
  rw [← hkind, ← hkind', (List.cons.inj h).1]

theorem stops_items (items : List Json) (rest : List Char) : Stops (Json.renderItems false items ++ rest) := by
  cases items with
  | nil => exact stops_cons (by decide)
  | cons v vs => exact stops_cons (by decide)

theorem stops_fields (fields : List (String × Json)) (rest : List Char) :
    Stops (Json.renderFields false fields ++ rest) := by
  cases fields with
  | nil => exact stops_cons (by decide)
  | cons e fields => exact stops_cons (by decide)

/-- What closes a list begins no value. -/
theorem items_nil_ne {first : Bool} {v : Json} (hv : v.Valid) {vs : List Json} {r r' : List Char} :
    Json.renderItems first [] ++ r ≠ Json.renderItems first (v :: vs) ++ r' := by
  intro h
  obtain ⟨c, rest, hc, hkind⟩ := render_head hv
  cases first with
  | false => exact absurd (List.cons.inj h).1 (by decide)
  | true =>
      rw [Json.renderItems, Json.renderItems, hc] at h
      have hclose : kindOf ']' = v.kind := by
        rw [(List.cons.inj h).1]
        exact hkind
      cases v with
      | bool b => cases b <;> exact absurd hclose (by decide)
      | _ => exact absurd hclose (by simp only [Json.kind]; decide)

theorem fields_nil_ne {first : Bool} {e : String × Json} {fields : List (String × Json)} {r r' : List Char} :
    Json.renderFields first [] ++ r ≠ Json.renderFields first (e :: fields) ++ r' := by
  intro h
  cases first with
  | false => exact absurd (List.cons.inj h).1 (by decide)
  | true => exact absurd (List.cons.inj h).1 (by decide)

mutual
theorem render_unique : ∀ {v w : Json} {r r' : List Char}, v.Valid → w.Valid → Stops r → Stops r' →
    v.render ++ r = w.render ++ r' → v = w ∧ r = r'
  | .null, w, r, r', hv, hw, hr, hr', h => by
      have hkind := same_kind hv hw h
      cases w with
      | null => exact ⟨rfl, List.append_cancel_left h⟩
      | bool b => cases b <;> cases hkind
      | _ => cases hkind
  | .bool b, w, r, r', hv, hw, hr, hr', h => by
      have hkind := same_kind hv hw h
      cases w with
      | bool b' =>
          cases b with
          | true => cases b' with
            | true => exact ⟨rfl, List.append_cancel_left h⟩
            | false => cases hkind
          | false => cases b' with
            | true => cases hkind
            | false => exact ⟨rfl, List.append_cancel_left h⟩
      | _ => cases b <;> cases hkind
  | .number token, w, r, r', hv, hw, hr, hr', h => by
      have hkind := same_kind hv hw h
      cases w with
      | number token' =>
          obtain ⟨rfl, hrest⟩ := number_unique hv.chars hw.chars hr hr' h
          exact ⟨rfl, hrest⟩
      | bool b => cases b <;> cases hkind
      | _ => cases hkind
  | .str s, w, r, r', hv, hw, hr, hr', h => by
      have hkind := same_kind hv hw h
      cases w with
      | str t =>
          obtain ⟨rfl, hrest⟩ := quote_unique h
          exact ⟨rfl, hrest⟩
      | bool b => cases b <;> cases hkind
      | _ => cases hkind
  | .arr items, w, r, r', hv, hw, hr, hr', h => by
      have hkind := same_kind hv hw h
      cases w with
      | arr items' =>
          obtain ⟨rfl, hrest⟩ := renderItems_unique hv hw (List.cons.inj h).2
          exact ⟨rfl, hrest⟩
      | bool b => cases b <;> cases hkind
      | _ => cases hkind
  | .obj fields, w, r, r', hv, hw, hr, hr', h => by
      have hkind := same_kind hv hw h
      cases w with
      | obj fields' =>
          obtain ⟨rfl, hrest⟩ := renderFields_unique hv hw (List.cons.inj h).2
          exact ⟨rfl, hrest⟩
      | bool b => cases b <;> cases hkind
      | _ => cases hkind

theorem renderItems_unique : ∀ {first : Bool} {vs ws : List Json} {r r' : List Char}, Json.ValidItems vs →
    Json.ValidItems ws → Json.renderItems first vs ++ r = Json.renderItems first ws ++ r' → vs = ws ∧ r = r'
  | first, [], ws, r, r', hvs, hws, h => by
      cases ws with
      | nil => exact ⟨rfl, List.append_cancel_left h⟩
      | cons w ws => exact absurd h (items_nil_ne hws.1)
  | first, v :: vs, ws, r, r', hvs, hws, h => by
      cases ws with
      | nil => exact absurd h.symm (items_nil_ne hvs.1)
      | cons w ws =>
          rw [Json.renderItems, Json.renderItems, List.append_assoc, List.append_assoc, List.append_assoc,
            List.append_assoc] at h
          obtain ⟨rfl, hrest⟩ := render_unique hvs.1 hws.1 (stops_items vs r) (stops_items ws r')
            (List.append_cancel_left h)
          obtain ⟨rfl, hr⟩ := renderItems_unique hvs.2 hws.2 hrest
          exact ⟨rfl, hr⟩

theorem renderFields_unique : ∀ {first : Bool} {fs gs : List (String × Json)} {r r' : List Char}, Json.ValidFields fs →
    Json.ValidFields gs → Json.renderFields first fs ++ r = Json.renderFields first gs ++ r' → fs = gs ∧ r = r'
  | first, [], gs, r, r', hfs, hgs, h => by
      cases gs with
      | nil => exact ⟨rfl, List.append_cancel_left h⟩
      | cons g gs => exact absurd h fields_nil_ne
  | first, (key, v) :: fs, gs, r, r', hfs, hgs, h => by
      cases gs with
      | nil => exact absurd h.symm fields_nil_ne
      | cons g gs =>
          obtain ⟨key', w⟩ := g
          rw [Json.renderFields, Json.renderFields, List.append_assoc, List.append_assoc, List.append_assoc,
            List.append_assoc] at h
          obtain ⟨hkey, hvalues⟩ := quote_unique (List.append_cancel_left h)
          have hrender : v.render ++ Json.renderFields false fs ++ r = w.render ++ Json.renderFields false gs ++ r' :=
            (List.cons.inj (List.cons.inj hvalues).2).2
          rw [List.append_assoc, List.append_assoc] at hrender
          obtain ⟨rfl, hrest⟩ := render_unique hfs.1 hgs.1 (stops_fields fs r) (stops_fields gs r') hrender
          obtain ⟨rfl, hr⟩ := renderFields_unique hfs.2 hgs.2 hrest
          exact ⟨by rw [String.toList_inj.mp hkey], hr⟩
end

/-- The text of a value is the text of no other one. -/
theorem render_injective {v w : Json} (hv : v.Valid) (hw : w.Valid) (h : v.render = w.render) : v = w := by
  have hstops : Stops [] := fun c tail heq => by cases heq
  exact (render_unique hv hw hstops hstops (by rw [h])).1

/-! ## Objects by their keys -/

/-- The fields in the order of their keys. -/
def sortFields (fields : List (String × Json)) : List (String × Json) :=
  fields.insertionSort fun e e' => e.1 ≤ e'.1

theorem validFields_iff {fields : List (String × Json)} : Json.ValidFields fields ↔ ∀ e ∈ fields, e.2.Valid := by
  induction fields with
  | nil => simp [Json.ValidFields]
  | cons e fields ih =>
      obtain ⟨key, v⟩ := e
      simp [Json.ValidFields, ih]

theorem sortFields_valid {fields : List (String × Json)} (h : Json.ValidFields fields) :
    Json.ValidFields (sortFields fields) := by
  rw [validFields_iff] at h ⊢
  exact fun e he => h e ((List.perm_insertionSort _ fields).subset he)

/-- Objects that print alike hold the same under every key. -/
theorem lookup_of_sortFields {fields fields' : List (String × Json)} (hunique : Dict.Unique fields)
    (hunique' : Dict.Unique fields') (h : sortFields fields = sortFields fields') (key : String) :
    fields.lookup key = fields'.lookup key := by
  have hperm : fields.Perm fields' :=
    (List.perm_insertionSort (fun e e' : String × Json => e.1 ≤ e'.1) fields).symm.trans
      ((List.Perm.of_eq h).trans (List.perm_insertionSort _ fields'))
  refine Option.ext fun v => ?_
  rw [← Dict.mem_iff_lookup hunique, ← Dict.mem_iff_lookup hunique']
  exact hperm.mem_iff

end YiQiao.Lib
