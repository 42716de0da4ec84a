import Lineage.Number.Basic
import Lineage.Number.Reading
import Lineage.Proofs.Number.Shortest

/-! Written numbers. Whatever the layout, the digits, the point and the exponent of a written magnitude
stand for the decimal that was laid out, and a shortest decimal reads back as one magnitude only. So the
text of a number tells the number: the sign of a zero, and whether it is a whole number or a float. -/

namespace Lineage

namespace Binary64

/-- What stands after a point, if there is one, and the text after it. -/
def splitPlaces : List Char → List Char × List Char
  | '.' :: more => (more.takeWhile Char.isDigit, more.dropWhile Char.isDigit)
  | rest => ([], rest)

/-- The rational number that a written magnitude stands for. -/
def writtenValue (cs : List Char) : ℚ :=
  let (places, power) := splitPlaces (cs.dropWhile Char.isDigit)
  digitsValue (cs.takeWhile Char.isDigit ++ places) *
    10 ^ ((readExponent? power).getD 0 - (places.length : ℤ))

variable {x y : Binary64} {l : Layout} {d : Decimal} {whole places power digits : List Char}
  {n : ℕ} {scale exponent : ℤ} {c : Char}

theorem span_digits (power : List Char) (hwhole : ∀ c ∈ whole, c.isDigit = true)
    (hpower : ∀ c, power.head? = some c → c.isDigit = false) :
    (whole ++ power).takeWhile Char.isDigit = whole ∧
      (whole ++ power).dropWhile Char.isDigit = power := by
  rw [List.takeWhile_append_of_pos hwhole, List.dropWhile_append_of_pos hwhole]
  cases power with
  | nil => simp
  | cons c rest => simp [hpower c rfl]

theorem splitPlaces_of_ne (h : ∀ c, power.head? = some c → c ≠ '.') : splitPlaces power = ([], power) := by
  unfold splitPlaces
  split
  · exact absurd rfl (h '.' rfl)
  · rfl

theorem writtenValue_whole (hwhole : ∀ c ∈ whole, c.isDigit = true)
    (hpower : ∀ c, power.head? = some c → c.isDigit = false ∧ c ≠ '.') :
    writtenValue (whole ++ power) = digitsValue whole * 10 ^ (readExponent? power).getD 0 := by
  obtain ⟨htake, hdrop⟩ := span_digits power hwhole fun c hc => (hpower c hc).1
  rw [writtenValue, htake, hdrop, splitPlaces_of_ne fun c hc => (hpower c hc).2]
  simp

theorem writtenValue_point (whole places : List Char) (hwhole : ∀ c ∈ whole, c.isDigit = true)
    (hplaces : ∀ c ∈ places, c.isDigit = true)
    (hpower : ∀ c, power.head? = some c → c.isDigit = false) :
    writtenValue (whole ++ '.' :: (places ++ power)) =
      digitsValue (whole ++ places) * 10 ^ ((readExponent? power).getD 0 - (places.length : ℤ)) := by
  obtain ⟨htake, hdrop⟩ := span_digits ('.' :: (places ++ power)) hwhole fun c hc => by
    cases hc
    rfl
  obtain ⟨htake', hdrop'⟩ := span_digits power hplaces hpower
  rw [writtenValue, htake, hdrop, splitPlaces, htake', hdrop']

theorem digitsValue_append_zeros (ds : List Char) (n : ℕ) :
    digitsValue (ds ++ zeros n) = digitsValue ds * 10 ^ n := by
  rw [digitsValue, Nat.ofDigitChars_append, zeros, Nat.ofDigitChars_replicate_zero, Nat.mul_comm]
  rfl

theorem digitsValue_zeros_append (n : ℕ) (ds : List Char) : digitsValue (zeros n ++ ds) = digitsValue ds := by
  rw [digitsValue, Nat.ofDigitChars_append, zeros, Nat.ofDigitChars_replicate_zero, Nat.mul_zero]
  rfl

theorem isDigit_of_mem_zeros (h : c ∈ zeros n) : c.isDigit = true := by
  rw [List.eq_of_mem_replicate h]
  rfl

theorem writtenValue_positional (hdigits : ∀ c ∈ digits, c.isDigit = true) :
    writtenValue (positional digits scale) = digitsValue digits * 10 ^ scale := by
  have hnone : ∀ c, ([] : List Char).head? = some c → c.isDigit = false := by simp
  unfold positional
  simp only
  split
  · rename_i hscale
    have hwhole : ∀ c ∈ digits ++ zeros scale.toNat, c.isDigit = true := fun c hc =>
      (List.mem_append.mp hc).elim (hdigits c) isDigit_of_mem_zeros
    have hvalue := writtenValue_point _ (zeros 1) hwhole (fun c => isDigit_of_mem_zeros) hnone
    rw [List.append_nil] at hvalue
    refine hvalue.trans ?_
    obtain ⟨n, rfl⟩ := Int.eq_ofNat_of_zero_le hscale
    rw [digitsValue_append_zeros, digitsValue_append_zeros]
    simp [readExponent?, zeros]
  · split
    · rename_i hscale hwhole
      have hvalue := writtenValue_point (digits.take (digits.length + scale).toNat)
        (digits.drop (digits.length + scale).toNat) (fun c hc => hdigits c (List.mem_of_mem_take hc))
        (fun c hc => hdigits c (List.mem_of_mem_drop hc)) hnone
      rw [List.append_nil, List.take_append_drop, List.length_drop] at hvalue
      refine hvalue.trans ?_
      congr 2
      simp only [readExponent?, Option.getD_some]
      omega
    · rename_i hscale hwhole
      have hplaces : ∀ c ∈ zeros (-(digits.length + scale)).toNat ++ digits, c.isDigit = true := fun c hc =>
        (List.mem_append.mp hc).elim isDigit_of_mem_zeros (hdigits c)
      have hvalue := writtenValue_point (zeros 1) _ (fun c => isDigit_of_mem_zeros) hplaces hnone
      rw [List.append_nil, digitsValue_zeros_append, digitsValue_zeros_append] at hvalue
      refine hvalue.trans ?_
      congr 2
      simp only [readExponent?, Option.getD_some, List.length_append, zeros, List.length_replicate]
      omega

theorem isDigit_of_mem_decimal (h : c ∈ Nat.toDigits 10 n) : c.isDigit = true :=
  Nat.isDigit_of_mem_toDigits (by decide) (by decide) h

/-- The exponent mark with the sign of the exponent. -/
theorem readExponent?_scientific (signed : Bool) (exponent : ℤ) :
    readExponent? ('e' :: (if exponent < 0 then ['-'] else if signed then ['+'] else []) ++
      Nat.toDigits 10 exponent.natAbs) = some exponent := by
  have hall : (Nat.toDigits 10 exponent.natAbs).all Char.isDigit = true :=
    List.all_eq_true.mpr fun c hc => isDigit_of_mem_decimal hc
  have hempty : (Nat.toDigits 10 exponent.natAbs).isEmpty = false := by
    rw [List.isEmpty_eq_false_iff]
    exact Nat.toDigits_ne_nil
  have hvalue : digitsValue (Nat.toDigits 10 exponent.natAbs) = exponent.natAbs :=
    Nat.ofDigitChars_ten_toDigits
  have hunsigned : splitSign (Nat.toDigits 10 exponent.natAbs) =
      (false, Nat.toDigits 10 exponent.natAbs) := by
    unfold splitSign
    split
    · rename_i heq
      rw [heq] at hall
      cases hall
    · rename_i heq
      rw [heq] at hall
      cases hall
    · rfl
  simp only [readExponent?, List.cons_append, beq_self_eq_true, Bool.true_or, if_true]
  by_cases hneg : exponent < 0
  · simp only [if_pos hneg, List.cons_append, List.nil_append, splitSign, hempty, hall, hvalue]
    simp only [Bool.not_true, Bool.or_self, Bool.false_eq_true, if_false, if_true, Option.some.injEq]
    omega
  · by_cases hsigned : signed = true
    · simp only [if_neg hneg, if_pos hsigned, List.cons_append, List.nil_append, splitSign, hempty, hall,
        hvalue]
      simp
      omega
    · simp only [if_neg hneg, if_neg hsigned, List.nil_append, hunsigned, hempty, hall, hvalue]
      simp
      omega

theorem writtenValue_scientific (signed : Bool) (hdigits : ∀ c ∈ digits, c.isDigit = true)
    (hne : digits ≠ []) : writtenValue (scientific signed digits exponent) =
      digitsValue digits * 10 ^ (exponent - (digits.length - 1)) := by
  have hread := readExponent?_scientific signed exponent
  unfold scientific
  simp only
  set power := 'e' :: (if exponent < 0 then ['-'] else if signed then ['+'] else []) ++
    Nat.toDigits 10 exponent.natAbs with hpower
  have hhead : ∀ c, power.head? = some c → c.isDigit = false ∧ c ≠ '.' := by
    intro c hc
    cases hc
    decide
  cases digits with
  | nil => exact absurd rfl hne
  | cons first rest =>
    cases rest with
    | nil =>
      refine (writtenValue_whole hdigits hhead).trans ?_
      rw [hread]
      simp
    | cons second rest =>
      have hvalue := writtenValue_point [first] (second :: rest)
        (fun c hc => hdigits c (by simp_all)) (fun c hc => hdigits c (by simp_all)) fun c hc =>
          (hhead c hc).1
      refine hvalue.trans ?_
      rw [hread]
      simp

theorem writtenValue_magnitude : writtenValue (l.magnitude d) = d.value := by
  have hdigits : ∀ c ∈ Nat.toDigits 10 d.digits, c.isDigit = true := fun c => isDigit_of_mem_decimal
  have hvalue : digitsValue (Nat.toDigits 10 d.digits) = d.digits := Nat.ofDigitChars_ten_toDigits
  unfold Layout.magnitude
  simp only
  split
  · rw [writtenValue_positional hdigits, hvalue, Decimal.value]
  · rw [writtenValue_scientific _ hdigits Nat.toDigits_ne_nil, hvalue, Decimal.value]
    congr 2
    omega

/-- A decimal that reads back as a magnitude other than zero is positive. -/
theorem value_pos_of_contains (hx : x.bits ≠ 0) (h : x.rounding.contains d = true) : 0 < d.value := by
  have hmid : 0 < midpoint (x.bits - 1) := by
    have hmono := midpoint_strictMono.monotone (Nat.zero_le (x.bits - 1))
    have hzero : magnitudeOf 0 = 0 := by simp [magnitudeOf, significandOf]
    rw [midpoint_eq, hzero, zero_add] at hmono
    have := unit_pos 0
    linarith
  rw [contains_iff hx] at h
  split at h
  · linarith [h.1]
  · linarith [h.1]

theorem significand_eq_zero_iff : x.significand = 0 ↔ x.bits = 0 := by
  rw [significand_eq, significandOf_eq_zero_iff]

theorem eq_of_bits (hsign : x.isNegative = y.isNegative) (hbits : x.bits = y.bits) : x = y := by
  have hx := x.word.toNat_lt
  have hy := y.word.toNat_lt
  have hword : x.word.toNat = y.word.toNat := by
    rw [isNegative, isNegative, decide_eq_decide, Nat.pow_eq] at hsign
    unfold bits at hbits
    omega
  exact congrArg Binary64.mk (UInt64.toNat_inj.mp hword)

/-- The body of a written number, without its sign. -/
def Layout.body (l : Layout) (x : Binary64) : List Char :=
  if x.significand = 0 then ['0', '.', '0'] else l.magnitude x.shortest

theorem bits_eq_of_body (hx : x.isFinite = true) (hy : y.isFinite = true)
    (h : l.body x = l.body y) : x.bits = y.bits := by
  have hzero : ∀ {x : Binary64}, x.bits = 0 → writtenValue (l.body x) = 0 := by
    intro x hzero
    rw [Layout.body, if_pos (significand_eq_zero_iff.mpr hzero)]
    have hvalue := writtenValue_point (zeros 1) (zeros 1) (fun c => isDigit_of_mem_zeros)
      (fun c => isDigit_of_mem_zeros) fun c (hc : ([] : List Char).head? = some c) => nomatch hc
    refine hvalue.trans ?_
    rw [digitsValue_append_zeros]
    simp [zeros, digitsValue, Nat.ofDigitChars_eq_foldl]
  have hread : ∀ {x : Binary64}, x.isFinite = true → x.bits ≠ 0 →
      ∃ d, x.rounding.contains d = true ∧ writtenValue (l.body x) = d.value := by
    intro x hfinite hne
    obtain ⟨d, hd, hvalue⟩ := exists_contains_shortest hfinite hne
    refine ⟨d, hd, ?_⟩
    rw [Layout.body, if_neg (significand_eq_zero_iff.not.mpr hne), writtenValue_magnitude, hvalue]
  by_cases hxzero : x.bits = 0
  · by_cases hyzero : y.bits = 0
    · rw [hxzero, hyzero]
    · obtain ⟨d, hd, hvalue⟩ := hread hy hyzero
      have hpos := value_pos_of_contains hyzero hd
      rw [← hvalue, ← h, hzero hxzero] at hpos
      exact absurd hpos (lt_irrefl 0)
  · obtain ⟨d, hd, hvalue⟩ := hread hx hxzero
    by_cases hyzero : y.bits = 0
    · have hpos := value_pos_of_contains hxzero hd
      rw [← hvalue, h, hzero hyzero] at hpos
      exact absurd hpos (lt_irrefl 0)
    · obtain ⟨d', hd', hvalue'⟩ := hread hy hyzero
      exact bits_eq_of_contains hxzero hyzero hd hd' (by rw [← hvalue, ← hvalue', h])

end Binary64

/-- The characters of written numbers. -/
def isNumberChar (c : Char) : Bool := c.isDigit || c == '-' || c == '+' || c == '.' || c == 'e'

namespace Binary64

variable {x y : Binary64} {l : Layout} {c : Char}

theorem isNumberChar_of_mem_positional {digits : List Char} {scale : ℤ}
    (hdigits : ∀ c ∈ digits, c.isDigit = true) (h : c ∈ positional digits scale) :
    isNumberChar c = true := by
  have hdigit : c.isDigit = true → isNumberChar c = true := fun hc => by simp [isNumberChar, hc]
  have hzeros : ∀ {n}, c ∈ zeros n → isNumberChar c = true := fun hc => hdigit (isDigit_of_mem_zeros hc)
  unfold positional at h
  simp only at h
  split at h
  · rcases List.mem_append.mp h with hc | hc
    · rcases List.mem_append.mp hc with hc | hc
      · exact hdigit (hdigits c hc)
      · exact hzeros hc
    · simp only [List.mem_cons, List.not_mem_nil, or_false] at hc
      rcases hc with rfl | rfl <;> rfl
  · split at h
    · rcases List.mem_append.mp h with hc | hc
      · exact hdigit (hdigits c (List.mem_of_mem_take hc))
      · rcases List.mem_cons.mp hc with rfl | hc
        · rfl
        · exact hdigit (hdigits c (List.mem_of_mem_drop hc))
    · simp only [List.cons_append, List.mem_cons, List.mem_append] at h
      rcases h with rfl | rfl | hc | hc
      · rfl
      · rfl
      · exact hzeros hc
      · exact hdigit (hdigits c hc)

theorem isNumberChar_of_mem_scientific {digits : List Char} {signed : Bool} {exponent : ℤ}
    (hdigits : ∀ c ∈ digits, c.isDigit = true) (h : c ∈ scientific signed digits exponent) :
    isNumberChar c = true := by
  have hdigit : c.isDigit = true → isNumberChar c = true := fun hc => by simp [isNumberChar, hc]
  have hpower : c ∈ 'e' :: (if exponent < 0 then ['-'] else if signed then ['+'] else []) ++
      Nat.toDigits 10 exponent.natAbs → isNumberChar c = true := by
    intro hc
    simp only [List.cons_append, List.mem_cons, List.mem_append] at hc
    rcases hc with rfl | hc | hc
    · rfl
    · split at hc
      · rw [List.mem_singleton.mp hc]
        rfl
      · split at hc
        · rw [List.mem_singleton.mp hc]
          rfl
        · cases hc
    · exact hdigit (isDigit_of_mem_decimal hc)
  unfold scientific at h
  simp only at h
  split at h
  · exact hpower h
  · rcases List.mem_cons.mp h with rfl | hc
    · exact hdigit (hdigits _ (by simp))
    · exact hpower hc
  · rename_i first rest _
    rcases List.mem_append.mp h with hc | hc
    · simp only [List.mem_cons] at hc
      rcases hc with rfl | rfl | hc
      · exact hdigit (hdigits _ (by simp))
      · rfl
      · exact hdigit (hdigits _ (by simp [hc]))
    · exact hpower hc

theorem isNumberChar_of_mem_body (h : c ∈ l.body x) : isNumberChar c = true := by
  unfold Layout.body Layout.magnitude at h
  simp only at h
  split at h
  · simp only [List.mem_cons, List.not_mem_nil, or_false] at h
    rcases h with rfl | rfl | rfl <;> rfl
  · split at h
    · exact isNumberChar_of_mem_positional (fun c => isDigit_of_mem_decimal) h
    · exact isNumberChar_of_mem_scientific (fun c => isDigit_of_mem_decimal) h

/-- A written body shows a digit first. -/
theorem head_body (h : (l.body x).head? = some c) : c.isDigit = true := by
  have hfirst : ∀ {digits rest : List Char}, (∀ c ∈ digits, c.isDigit = true) → digits ≠ [] →
      (digits ++ rest).head? = some c → c.isDigit = true := by
    intro digits rest hdigits hne hc
    rw [List.head?_append_of_ne_nil _ hne] at hc
    exact hdigits c (List.mem_of_head? hc)
  have hdigits : ∀ c ∈ Nat.toDigits 10 x.shortest.digits, c.isDigit = true := fun c =>
    isDigit_of_mem_decimal
  have hne : Nat.toDigits 10 x.shortest.digits ≠ [] := Nat.toDigits_ne_nil
  unfold Layout.body Layout.magnitude at h
  simp only at h
  generalize Nat.toDigits 10 x.shortest.digits = digits at h hdigits hne
  split at h
  · cases h
    rfl
  · split at h
    · unfold positional at h
      simp only at h
      split at h
      · rw [List.append_assoc] at h
        exact hfirst hdigits hne h
      · split at h
        · rename_i hwhole
          refine hfirst (fun c hc => hdigits c (List.mem_of_mem_take hc)) (fun hnil => ?_) h
          rcases List.take_eq_nil_iff.mp hnil with hzero | hnil
          · omega
          · exact hne hnil
        · cases h
          rfl
    · unfold scientific at h
      simp only at h
      split at h
      · exact absurd rfl hne
      · cases h
        exact hdigits _ (by simp)
      · cases h
        exact hdigits _ (by simp)

/-- A written body has a point or an exponent. -/
theorem point_or_exponent_mem_body : '.' ∈ l.body x ∨ 'e' ∈ l.body x := by
  unfold Layout.body Layout.magnitude
  simp only
  split
  · exact .inl (by decide)
  · split
    · left
      unfold positional
      simp only
      split
      · simp
      · split <;> simp
    · right
      unfold scientific
      simp only
      split <;> simp

theorem toList_render : (l.render x).toList = if x.isNegative then '-' :: l.body x else l.body x := by
  rw [Layout.render, String.toList_ofList]
  rfl

/-- The text of a finite number tells the number. -/
theorem render_inj (hx : x.isFinite = true) (hy : y.isFinite = true) (h : l.render x = l.render y) :
    x = y := by
  have hminus : ∀ {x y : Binary64}, l.body x ≠ '-' :: l.body y := fun heq => by
    have := head_body (c := '-') (by rw [heq]; rfl)
    cases this
  have htext := congrArg String.toList h
  rw [toList_render, toList_render] at htext
  by_cases hsign : x.isNegative = y.isNegative
  · refine eq_of_bits hsign (bits_eq_of_body hx hy (l := l) ?_)
    rw [hsign] at htext
    split at htext
    · exact (List.cons.inj htext).2
    · exact htext
  · split at htext
    · rename_i hneg
      rw [if_neg (fun hneg' => hsign (hneg.trans hneg'.symm))] at htext
      exact absurd htext.symm hminus
    · rename_i hpos
      rw [if_pos (by simpa [hpos] using Ne.symm hsign)] at htext
      exact absurd htext hminus

end Binary64

namespace Number

variable {n m : Number} {c : Char} {i : ℤ}

theorem toList_toString_int (i : ℤ) : (toString i).toList =
    if i < 0 then '-' :: Nat.toDigits 10 i.natAbs else Nat.toDigits 10 i.natAbs := by
  rw [Int.toString_eq_repr]
  cases i with
  | ofNat n => simp [Int.repr, Nat.toList_repr]
  | negSucc n => simp [Int.repr, Nat.toList_repr, Int.negSucc_lt_zero]

theorem mem_toString_int (h : c ∈ (toString i).toList) : c.isDigit = true ∨ c = '-' := by
  rw [toList_toString_int] at h
  split at h
  · rcases List.mem_cons.mp h with rfl | hc
    · exact .inr rfl
    · exact .inl (Binary64.isDigit_of_mem_decimal hc)
  · exact .inl (Binary64.isDigit_of_mem_decimal h)

theorem toString_int_inj {i j : ℤ} (h : toString i = toString j) : i = j := by
  have hdigits : ∀ {m n : ℕ}, Nat.toDigits 10 m = Nat.toDigits 10 n → m = n := by
    intro m n hmn
    have := congrArg (fun ds => Nat.ofDigitChars 10 ds 0) hmn
    simpa only [Nat.ofDigitChars_ten_toDigits] using this
  have hminus : ∀ {m n : ℕ}, Nat.toDigits 10 m ≠ '-' :: Nat.toDigits 10 n := fun {m n} heq => by
    have : '-' ∈ Nat.toDigits 10 m := by
      rw [heq]
      exact List.mem_cons_self
    cases Binary64.isDigit_of_mem_decimal this
  have htext := congrArg String.toList h
  rw [toList_toString_int, toList_toString_int] at htext
  split at htext
  · split at htext
    · have := hdigits (List.cons.inj htext).2
      omega
    · exact absurd htext.symm hminus
  · split at htext
    · exact absurd htext hminus
    · have := hdigits htext
      omega

theorem isNumberChar_of_mem_render (h : c ∈ n.render.toList) : isNumberChar c = true := by
  cases n with
  | integer i fits =>
    rcases mem_toString_int h with hc | rfl
    · simp [isNumberChar, hc]
    · rfl
  | float x finite =>
    rw [render, Binary64.toList_render] at h
    split at h
    · rcases List.mem_cons.mp h with rfl | hc
      · rfl
      · exact Binary64.isNumberChar_of_mem_body hc
    · exact Binary64.isNumberChar_of_mem_body h

theorem render_ne_nil : n.render.toList ≠ [] := by
  cases n with
  | integer i fits =>
    change (toString i).toList ≠ []
    rw [toList_toString_int]
    split
    · simp
    · exact Nat.toDigits_ne_nil
  | float x finite =>
    rw [render, Binary64.toList_render]
    split
    · simp
    · rcases Binary64.point_or_exponent_mem_body (l := .json) (x := x) with h | h <;>
        exact List.ne_nil_of_mem h

/-- Only the text of a float has a point or an exponent. -/
theorem render_integer_ne_float {fits : fitsWord i = true} {x : Binary64} {finite : x.isFinite = true} :
    (integer i fits).render ≠ (float x finite).render := by
  intro h
  have hmem : ∀ c ∈ Binary64.Layout.json.body x, c ∈ (toString i).toList := by
    intro c hc
    rw [show toString i = (float x finite).render from h, render, Binary64.toList_render]
    split
    · exact List.mem_cons_of_mem _ hc
    · exact hc
  rcases Binary64.point_or_exponent_mem_body (l := .json) (x := x) with hc | hc
  · rcases mem_toString_int (hmem _ hc) with hdigit | heq
    · cases hdigit
    · cases heq
  · rcases mem_toString_int (hmem _ hc) with hdigit | heq
    · cases hdigit
    · cases heq

/-- The text of a number tells the number. -/
theorem render_injective : Function.Injective render := by
  intro n m h
  cases n with
  | integer i fits =>
    cases m with
    | integer j fits' =>
      obtain rfl := toString_int_inj h
      rfl
    | float x finite => exact absurd h render_integer_ne_float
  | float x finite =>
    cases m with
    | integer j fits => exact absurd h.symm render_integer_ne_float
    | float y finite' =>
      obtain rfl := Binary64.render_inj finite finite' h
      rfl

end Number

end Lineage
