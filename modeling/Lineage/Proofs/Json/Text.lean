import Lineage.Json.Printer
import Lineage.Json.Reader
import Lineage.Proofs.Number.Text

/-! Values from their text. Compact text is read without looking ahead: the first character tells which
sort of value starts, a string ends at the first quote that no backslash precedes, and no number goes on
into what can follow a value. So two values with one text are one value. -/

namespace Lineage.Json

variable {s t : String} {cs rest r : List Char} {c : Char} {n fuel : Nat}

/-- The escape of a control is written with two zeros. -/
theorem escapeDigits_control : ∀ n, n < 32 →
    escapeDigits n = ['0', '0', Nat.digitChar (n / 16), Nat.digitChar (n % 16)] := by
  decide

theorem hexValue?_digitChar : ∀ n, n < 16 → hexValue? (Nat.digitChar n) = some n := by
  decide

theorem readEscapedUnit_control (hc : c.toNat < 32) :
    readEscapedUnit (escapeDigits c.toNat ++ rest) = some (c, rest) := by
  have hhigh := hexValue?_digitChar (c.toNat / 16) (by omega)
  have hlow := hexValue?_digitChar (c.toNat % 16) (by omega)
  have hzero : hexValue? '0' = some 0 := rfl
  have hunit : ((0 * 16 + 0) * 16 + c.toNat / 16) * 16 + c.toNat % 16 = c.toNat := by omega
  rw [escapeDigits_control c.toNat hc]
  simp only [readEscapedUnit, List.cons_append, List.nil_append, readHex, hzero, hhigh, hlow, hunit,
    Option.bind_eq_bind, Option.bind_some, Char.ofNat_toNat]
  rw [if_neg (by simp; omega), if_neg (by simp; omega)]

/-- What reading one character and then the rest gives. -/
def prepend (c : Char) : Option (List Char × List Char) → Option (List Char × List Char) :=
  Option.map fun p => (c :: p.1, p.2)

theorem readString_plain (hquote : c ≠ '"') (hbackslash : c ≠ '\\') (hcontrol : ¬c.toNat < 32) :
    readString (fuel + 1) (c :: rest) = prepend c (readString fuel rest) := by
  rw [readString.eq_def]
  simp only
  split
  · rename_i heq
    cases heq
  · rename_i heq
    exact absurd (List.cons.inj heq).1 hquote
  · rename_i heq
    exact absurd (List.cons.inj heq).1 hbackslash
  · rename_i heq
    exact absurd (List.cons.inj heq).1 hbackslash
  · rename_i heq
    obtain ⟨rfl, rfl⟩ := List.cons.inj heq
    rw [if_neg (by simpa [hcontrol] using hbackslash)]
    cases readString fuel rest <;> rfl

theorem readString_letter {letter : Char} (hletter : letter ≠ 'u') (hc : letterEscape? letter = some c) :
    readString (fuel + 1) ('\\' :: letter :: rest) = prepend c (readString fuel rest) := by
  rw [readString.eq_def]
  simp only [hc, Option.bind_eq_bind, Option.bind_some]
  cases readString fuel rest <;> rfl

theorem readString_control (hc : c.toNat < 32) :
    readString (fuel + 1) ('\\' :: 'u' :: (escapeDigits c.toNat ++ rest)) =
      prepend c (readString fuel rest) := by
  rw [readString, readEscapedUnit_control hc]
  simp only [Option.bind_eq_bind, Option.bind_some]
  cases readString fuel rest <;> rfl

/-- One written character reads back. -/
theorem readString_escapedChar : readString (fuel + 1) (escapedChar c ++ rest) =
    prepend c (readString fuel rest) := by
  unfold escapedChar
  split
  case h_8 hquote hbackslash _ _ _ _ _ =>
    split
    · rename_i hcontrol
      exact readString_control hcontrol
    · rename_i hprintable
      exact readString_plain hquote hbackslash hprintable
  all_goals exact readString_letter (by decide) rfl

theorem readString_escaped (hfuel : cs.length < fuel) :
    readString fuel (cs.flatMap escapedChar ++ '"' :: r) = some (cs, r) := by
  induction cs generalizing fuel with
  | nil =>
    cases fuel with
    | zero => cases hfuel
    | succ fuel => rfl
  | cons c cs ih =>
    cases fuel with
    | zero => cases hfuel
    | succ fuel =>
      rw [List.flatMap_cons, List.append_assoc, readString_escapedChar,
        ih (Nat.lt_of_succ_lt_succ hfuel)]
      rfl

theorem escapedChar_ne_nil (c : Char) : escapedChar c ≠ [] := by
  unfold escapedChar
  repeat' split
  all_goals exact List.cons_ne_nil _ _

theorem length_le_escaped (cs : List Char) : cs.length ≤ (cs.flatMap escapedChar).length := by
  induction cs with
  | nil => exact Nat.le_refl 0
  | cons c cs ih =>
    have hpos := List.length_pos_of_ne_nil (escapedChar_ne_nil c)
    rw [List.flatMap_cons, List.length_append, List.length_cons]
    omega

/-- A written string reads back, whatever follows it. -/
theorem readQuoted_stringChars : readQuoted (stringChars s ++ rest) = some (s, rest) := by
  have hlength := length_le_escaped s.toList
  have hfuel : s.toList.length < (s.toList.flatMap escapedChar ++ '"' :: rest).length + 1 := by
    rw [List.length_append]
    omega
  have hread := readString_escaped (r := rest) hfuel
  rw [stringChars, List.cons_append, List.cons_append, List.append_assoc, List.singleton_append,
    readQuoted, hread]
  simp

theorem stringChars_append_inj (h : stringChars s ++ rest = stringChars t ++ r) : s = t ∧ rest = r := by
  have hread := congrArg readQuoted h
  rw [readQuoted_stringChars, readQuoted_stringChars] at hread
  simpa using hread

/-- What can follow a value: nothing, or a character of no number. -/
def Ends (r : List Char) : Prop := ∀ c, r.head? = some c → isNumberChar c = false

theorem number_append_inj {a b : Number} (hrest : Ends rest) (hr : Ends r)
    (h : a.render.toList ++ rest = b.render.toList ++ r) : a = b ∧ rest = r := by
  have hspan : ∀ {n : Number} {rest : List Char}, Ends rest →
      (n.render.toList ++ rest).takeWhile isNumberChar = n.render.toList ∧
        (n.render.toList ++ rest).dropWhile isNumberChar = rest := by
    intro n rest hrest
    have hall : ∀ c ∈ n.render.toList, isNumberChar c = true := fun c =>
      Number.isNumberChar_of_mem_render
    rw [List.takeWhile_append_of_pos hall, List.dropWhile_append_of_pos hall]
    cases rest with
    | nil => simp
    | cons c rest => simp [hrest c rfl]
  have htake := congrArg (List.takeWhile isNumberChar) h
  have hdrop := congrArg (List.dropWhile isNumberChar) h
  rw [(hspan hrest).1, (hspan hr).1] at htake
  rw [(hspan hrest).2, (hspan hr).2] at hdrop
  exact ⟨Number.render_injective (String.toList_inj.mp htake), hdrop⟩

/-- What the first character of a text tells. -/
def opening (c : Char) : Char := if isNumberChar c then '0' else c

/-- What tells the sort of a value. -/
def sort : Json → Char
  | .null => 'n'
  | .bool true => 't'
  | .bool false => 'f'
  | .number _ => '0'
  | .string _ => '"'
  | .array _ => '['
  | .object _ => '\x7b'

theorem head_chars (v : Json) (r : List Char) :
    ((v.chars ++ r).head?.map opening) = some v.sort := by
  cases v with
  | null => rfl
  | bool value => cases value <;> rfl
  | number value =>
    rw [chars, List.head?_append_of_ne_nil _ Number.render_ne_nil]
    cases hhead : value.render.toList.head? with
    | none => exact absurd (List.head?_eq_none_iff.mp hhead) Number.render_ne_nil
    | some c =>
      rw [Option.map_some, opening,
        if_pos (Number.isNumberChar_of_mem_render (List.mem_of_head? hhead))]
      rfl
  | string text => rfl
  | array items => rfl
  | object members => rfl

section Sorts

variable {w : Json} {value : Bool}

theorem eq_of_sort_null (h : w.sort = 'n') : w = .null := by
  unfold sort at h
  split at h <;> first | rfl | cases h

theorem eq_of_sort_bool (h : w.sort = (Json.bool value).sort) : w = .bool value := by
  cases value <;> unfold sort at h <;> split at h <;> first | rfl | cases h

theorem exists_of_sort_number (h : w.sort = '0') : ∃ n, w = .number n := by
  unfold sort at h
  split at h <;> first | exact ⟨_, rfl⟩ | cases h

theorem exists_of_sort_string (h : w.sort = '"') : ∃ text, w = .string text := by
  unfold sort at h
  split at h <;> first | exact ⟨_, rfl⟩ | cases h

theorem exists_of_sort_array (h : w.sort = '[') : ∃ items, w = .array items := by
  unfold sort at h
  split at h <;> first | exact ⟨_, rfl⟩ | cases h

theorem exists_of_sort_object (h : w.sort = '\x7b') : ∃ members, w = .object members := by
  unfold sort at h
  split at h <;> first | exact ⟨_, rfl⟩ | cases h

end Sorts

theorem sort_ne_bracket (v : Json) : v.sort ≠ ']' := by
  unfold sort
  split <;> decide

/-- No value starts with a closing bracket. -/
theorem chars_append_ne_bracket (v : Json) (r s : List Char) : v.chars ++ r ≠ ']' :: s := by
  intro h
  have hhead := head_chars v r
  rw [h] at hhead
  exact sort_ne_bracket v (Option.some.inj hhead).symm

/-- What follows an item of an array. -/
def afterItem (r : List Char) : List Json → List Char
  | [] => ']' :: r
  | item :: items => ',' :: itemChars (item :: items) ++ ']' :: r

theorem itemChars_cons (v : Json) (vs : List Json) (r : List Char) :
    itemChars (v :: vs) ++ ']' :: r = v.chars ++ afterItem r vs := by
  cases vs <;> simp [itemChars, afterItem]

theorem ends_afterItem (r : List Char) (vs : List Json) : Ends (afterItem r vs) := by
  intro c hc
  cases vs <;> cases hc <;> rfl

/-- What follows a member of an object. -/
def afterMember (r : List Char) : List (String × Json) → List Char
  | [] => '\x7d' :: r
  | member :: members => ',' :: memberChars (member :: members) ++ '\x7d' :: r

theorem memberChars_cons (name : String) (v : Json) (ms : List (String × Json)) (r : List Char) :
    memberChars ((name, v) :: ms) ++ '\x7d' :: r =
      stringChars name ++ ':' :: (v.chars ++ afterMember r ms) := by
  cases ms <;> simp [memberChars, afterMember]

theorem ends_afterMember (r : List Char) (ms : List (String × Json)) : Ends (afterMember r ms) := by
  intro c hc
  cases ms <;> cases hc <;> rfl

mutual

theorem chars_append_inj (v w : Json) {r s : List Char} (hr : Ends r) (hs : Ends s)
    (h : v.chars ++ r = w.chars ++ s) : v = w ∧ r = s := by
  have hsort : v.sort = w.sort := by
    have hhead := head_chars v r
    rw [h, head_chars w s] at hhead
    exact (Option.some.inj hhead).symm
  cases v with
  | null =>
    cases eq_of_sort_null hsort.symm
    exact ⟨rfl, List.append_cancel_left h⟩
  | bool value =>
    cases eq_of_sort_bool hsort.symm
    exact ⟨rfl, List.append_cancel_left h⟩
  | number a =>
    obtain ⟨b, rfl⟩ := exists_of_sort_number hsort.symm
    obtain ⟨rfl, hrest⟩ := number_append_inj hr hs h
    exact ⟨rfl, hrest⟩
  | string a =>
    obtain ⟨b, rfl⟩ := exists_of_sort_string hsort.symm
    obtain ⟨rfl, hrest⟩ := stringChars_append_inj h
    exact ⟨rfl, hrest⟩
  | array items =>
    obtain ⟨items', rfl⟩ := exists_of_sort_array hsort.symm
    rw [chars, chars, List.cons_append, List.cons_append, List.cons_append, List.cons_append,
      List.append_assoc, List.append_assoc] at h
    obtain ⟨rfl, hrest⟩ := itemChars_append_inj items items' (List.cons.inj h).2
    exact ⟨rfl, hrest⟩
  | object members =>
    obtain ⟨members', rfl⟩ := exists_of_sort_object hsort.symm
    rw [chars, chars, List.cons_append, List.cons_append, List.cons_append, List.cons_append,
      List.append_assoc, List.append_assoc] at h
    obtain ⟨rfl, hrest⟩ := memberChars_append_inj members members' (List.cons.inj h).2
    exact ⟨rfl, hrest⟩

theorem itemChars_append_inj (vs ws : List Json) {r s : List Char}
    (h : itemChars vs ++ ']' :: r = itemChars ws ++ ']' :: s) : vs = ws ∧ r = s := by
  match vs, ws with
  | [], [] => exact ⟨rfl, (List.cons.inj h).2⟩
  | [], w :: ws =>
    rw [itemChars_cons] at h
    exact absurd h.symm (chars_append_ne_bracket w _ _)
  | v :: vs, [] =>
    rw [itemChars_cons] at h
    exact absurd h (chars_append_ne_bracket v _ _)
  | v :: vs, w :: ws =>
    rw [itemChars_cons, itemChars_cons] at h
    obtain ⟨rfl, hafter⟩ := chars_append_inj v w (ends_afterItem r vs) (ends_afterItem s ws) h
    match vs, ws with
    | [], [] => exact ⟨rfl, (List.cons.inj hafter).2⟩
    | v' :: vs, w' :: ws =>
      obtain ⟨heq, hrest⟩ := itemChars_append_inj (v' :: vs) (w' :: ws) (List.cons.inj hafter).2
      rw [heq]
      exact ⟨rfl, hrest⟩

theorem memberChars_append_inj (vs ws : List (String × Json)) {r s : List Char}
    (h : memberChars vs ++ '\x7d' :: r = memberChars ws ++ '\x7d' :: s) : vs = ws ∧ r = s := by
  match vs, ws with
  | [], [] => exact ⟨rfl, (List.cons.inj h).2⟩
  | [], (name, w) :: ws =>
    rw [memberChars_cons] at h
    cases h
  | (name, v) :: vs, [] =>
    rw [memberChars_cons] at h
    cases h
  | (name, v) :: vs, (name', w) :: ws =>
    rw [memberChars_cons, memberChars_cons] at h
    obtain ⟨rfl, hrest⟩ := stringChars_append_inj h
    obtain ⟨rfl, hafter⟩ := chars_append_inj v w (ends_afterMember r vs) (ends_afterMember s ws)
      (List.cons.inj hrest).2
    match vs, ws with
    | [], [] => exact ⟨rfl, (List.cons.inj hafter).2⟩
    | v' :: vs, w' :: ws =>
      obtain ⟨heq, hrest⟩ := memberChars_append_inj (v' :: vs) (w' :: ws) (List.cons.inj hafter).2
      rw [heq]
      exact ⟨rfl, hrest⟩

end

/-- The text of a value tells the value. -/
theorem render_injective : Function.Injective render := by
  intro v w h
  have hchars : v.chars = w.chars := by
    simpa [render] using congrArg String.toList h
  exact (chars_append_inj v w (r := []) (s := []) (by simp [Ends]) (by simp [Ends]) (by rw [hchars])).1

end Lineage.Json
