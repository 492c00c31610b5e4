import Mathlib.Data.List.TakeWhile
import TreeScript.Program
/-!
# Texts of numbers

Every number has a text from which a number is read. An integer is read back as itself, also with
blanks around its text. The text of a double is in the grammar of doubles, whatever the double is:
the shortest decimal has digits, and wherever the layout puts the point there is a digit in front of
the exponent. Neither text has a blank in it.
-/

set_option autoImplicit false

namespace TreeScript.Text

variable {left middle right : List Char}

theorem drop_blanks_append (blank : ∀ c ∈ left, isBlank c = true) (rest : List Char) :
    dropBlanks (left ++ rest) = dropBlanks rest :=
  List.dropWhile_append_of_pos blank

theorem drop_blanks_solid (some_left : middle ≠ []) (solid : ∀ c ∈ middle, isBlank c = false)
    (rest : List Char) : dropBlanks (middle ++ rest) = middle ++ rest := by
  cases middle with
  | nil => exact absurd rfl some_left
  | cons c middle => exact dropBlanks_of_head_not_blank (solid c List.mem_cons_self)

theorem trimmed_padded (blank : ∀ c ∈ left, isBlank c = true) (some_left : middle ≠ [])
    (solid : ∀ c ∈ middle, isBlank c = false) (blank' : ∀ c ∈ right, isBlank c = true) :
    trimmed (left ++ middle ++ right) = middle := by
  have behind : dropBlanks (right.reverse ++ middle.reverse) = middle.reverse := by
    rw [drop_blanks_append (by simpa using blank')]
    simpa using drop_blanks_solid (List.reverse_ne_nil_iff.mpr some_left) (by simpa using solid) []
  rw [trimmed, List.append_assoc, drop_blanks_append blank, drop_blanks_solid some_left solid,
    List.reverse_append, behind, List.reverse_reverse]

theorem trimmed_solid (some_left : middle ≠ []) (solid : ∀ c ∈ middle, isBlank c = false) :
    trimmed middle = middle := by
  have none : ∀ c ∈ ([] : List Char), isBlank c = true := by simp
  simpa using trimmed_padded none some_left solid none

theorem digit_not_blank {c : Char} (digit : c.isDigit = true) : isBlank c = false := by
  simp only [Char.isDigit, Bool.and_eq_true, decide_eq_true_eq] at digit
  have low : 48 ≤ c.toNat := digit.1
  have high : c.toNat ≤ 57 := digit.2
  simp only [isBlank, Bool.or_eq_false_iff, Bool.and_eq_false_iff, decide_eq_false_iff_not,
    beq_eq_false_iff_ne]
  omega

end TreeScript.Text

namespace TreeScript.Integer

theorem digits_of_number (number : Nat) : ∀ c ∈ Nat.toDigits 10 number, c.isDigit = true :=
  fun _ member => Nat.isDigit_of_mem_toDigits (by decide) (by decide) member

/-- An integer is written as a sign, if it is negative, and digits. -/
theorem repr_eq (value : Int) :
    value.repr.toList = (if value < 0 then ['-'] else []) ++ Nat.toDigits 10 value.natAbs := by
  cases value with
  | ofNat number =>
      rw [if_neg (by simp)]
      exact Nat.toList_repr
  | negSucc number =>
      rw [if_pos (Int.negSucc_lt_zero _)]
      change ("-" ++ number.succ.repr).toList = _
      rw [String.toList_append, Nat.toList_repr]
      rfl

theorem read_digits_text (number : Nat) : readDigits? (Nat.toDigits 10 number) = some number := by
  rw [readDigits?, if_pos ⟨Nat.toDigits_ne_nil, List.all_eq_true.mpr (digits_of_number number)⟩,
    Nat.ofDigitChars_ten_toDigits]

theorem read_unsigned {text : List Char} (digits : ∀ c ∈ text, c.isDigit = true) :
    read? text = (readDigits? text).bind fun value => ofInt? value := by
  unfold read?
  split
  · exact absurd (digits '-' List.mem_cons_self) (by decide)
  · exact absurd (digits '+' List.mem_cons_self) (by decide)
  · rfl

/-- An integer is read back from its text. -/
theorem read_text (word : Int64) : read? (text word).toList = some word := by
  rw [text, repr_eq]
  split
  case isTrue negative =>
    have same : -(word.toInt.natAbs : Int) = word.toInt := by omega
    change ((readDigits? (Nat.toDigits 10 word.toInt.natAbs)).bind fun value => ofInt? (-value)) = _
    rw [read_digits_text]
    change ofInt? (-(word.toInt.natAbs : Int)) = _
    rw [same, ofInt?_toInt]
  case isFalse positive =>
    have same : (word.toInt.natAbs : Int) = word.toInt := by omega
    rw [List.nil_append, read_unsigned (digits_of_number _), read_digits_text]
    change ofInt? (word.toInt.natAbs : Int) = _
    rw [same, ofInt?_toInt]

end TreeScript.Integer

namespace TreeScript.Double

variable {negative : Bool} {whole fraction tail : List Char}

theorem read_exponent_of_digits {digits : List Char} (some_left : digits ≠ [])
    (numeric : ∀ c ∈ digits, c.isDigit = true) :
    (readExponent? ('e' :: digits)).isSome = true ∧
      (readExponent? ('e' :: '-' :: digits)).isSome = true := by
  have given : digits ≠ [] ∧ digits.all Char.isDigit = true :=
    ⟨some_left, List.all_eq_true.mpr numeric⟩
  constructor
  · cases digits with
    | nil => exact absurd rfl some_left
    | cons c rest =>
        have digit := numeric c List.mem_cons_self
        have unsigned : c ≠ '-' ∧ c ≠ '+' := by
          constructor <;> rintro rfl <;> exact absurd digit (by decide)
        have all := given.2
        simp [readExponent?, unsigned, all]
  · simp [readExponent?, some_left, given.2]

theorem read_exponent_repr (value : Int) :
    (readExponent? ('e' :: value.repr.toList)).isSome = true := by
  have reads := read_exponent_of_digits Nat.toDigits_ne_nil
    (Integer.digits_of_number value.natAbs)
  rw [Integer.repr_eq]
  split
  · exact reads.2
  · exact reads.1

/-- What follows the digits of a decimal is nothing, or begins with the mark of the exponent. -/
theorem exponent_cases (read : (readExponent? tail).isSome = true) :
    tail = [] ∨ ∃ mark rest, tail = mark :: rest ∧ (mark = 'e' ∨ mark = 'E') := by
  cases tail with
  | nil => exact Or.inl rfl
  | cons mark rest =>
      refine Or.inr ⟨mark, rest, rfl, ?_⟩
      by_contra other
      simp only [readExponent?, if_neg other] at read
      cases read

theorem digits_end (read : (readExponent? tail).isSome = true) :
    tail.takeWhile Char.isDigit = [] ∧ tail.dropWhile Char.isDigit = tail := by
  obtain rfl | ⟨mark, rest, rfl, rfl | rfl⟩ := exponent_cases read
  · exact ⟨rfl, rfl⟩
  · exact ⟨rfl, rfl⟩
  · exact ⟨rfl, rfl⟩

theorem read_whole (digits : ∀ c ∈ whole, c.isDigit = true) (some_left : whole ≠ [])
    (read : (readExponent? tail).isSome = true) :
    (readDecimal? negative (whole ++ tail)).isSome = true := by
  have ends := digits_end read
  unfold readDecimal?
  rw [List.takeWhile_append_of_pos digits, List.dropWhile_append_of_pos digits, ends.1, ends.2]
  obtain rfl | ⟨mark, rest, rfl, rfl | rfl⟩ := exponent_cases read
  · simp [some_left, readExponent?]
  · simp [some_left, read]
  · simp [some_left, read]

theorem read_point (digits : ∀ c ∈ whole, c.isDigit = true)
    (digits' : ∀ c ∈ fraction, c.isDigit = true) (some_left : whole ++ fraction ≠ [])
    (read : (readExponent? tail).isSome = true) :
    (readDecimal? negative (whole ++ '.' :: (fraction ++ tail))).isSome = true := by
  have ends := digits_end read
  have point : ('.' :: (fraction ++ tail)).takeWhile Char.isDigit = [] := rfl
  have point' : ('.' :: (fraction ++ tail)).dropWhile Char.isDigit = '.' :: (fraction ++ tail) :=
    rfl
  unfold readDecimal?
  rw [List.takeWhile_append_of_pos digits, List.dropWhile_append_of_pos digits, point, point']
  simp only [List.takeWhile_append_of_pos digits', List.dropWhile_append_of_pos digits', ends.1,
    ends.2, List.append_nil]
  rw [if_neg some_left]
  simpa using read

/-- The characters of a number that is written: digits, and three marks. -/
def isWritten (c : Char) : Bool := c.isDigit || ['.', 'e', '-'].contains c

theorem written_of_digits {digits : List Char} (numeric : ∀ c ∈ digits, c.isDigit = true) :
    ∀ c ∈ digits, isWritten c = true := fun c member => by simp [isWritten, numeric c member]

theorem repr_written (value : Int) : ∀ c ∈ value.repr.toList, isWritten c = true := by
  intro c member
  rw [Integer.repr_eq, List.mem_append] at member
  obtain sign | digit := member
  · split at sign
    · obtain rfl := List.mem_singleton.mp sign
      rfl
    · cases sign
  · exact written_of_digits (Integer.digits_of_number _) c digit

theorem layout_written {digits : List Char} (point : Int)
    (numeric : ∀ c ∈ digits, c.isDigit = true) :
    ∀ c ∈ layout digits point, isWritten c = true := by
  have written := written_of_digits numeric
  have taken : ∀ count, ∀ c ∈ digits.take count, isWritten c = true :=
    fun _ c member => written c (List.mem_of_mem_take member)
  have dropped : ∀ count, ∀ c ∈ digits.drop count, isWritten c = true :=
    fun _ c member => written c (List.mem_of_mem_drop member)
  have marks : isWritten '.' = true ∧ isWritten 'e' = true ∧ isWritten '0' = true :=
    ⟨rfl, rfl, rfl⟩
  have exponent := repr_written (point - 1)
  unfold layout
  split
  · split
    · simpa [or_imp, forall_and, marks] using written
    · dsimp only
      split
      · simpa [or_imp, forall_and, marks] using taken _
      · simpa [or_imp, forall_and, marks] using ⟨taken _, dropped _⟩
  · dsimp only
    split
    · simpa [or_imp, forall_and, marks] using ⟨taken _, exponent⟩
    · have tail : ∀ c ∈ digits.tail, isWritten c = true :=
        fun c member => written c (List.mem_of_mem_tail member)
      simpa [or_imp, forall_and, marks] using ⟨taken _, tail, exponent⟩

/-- Wherever the point is placed, the layout of digits is a decimal. -/
theorem layout_read {digits : List Char} {point : Int} (numeric : ∀ c ∈ digits, c.isDigit = true)
    (placed : digits ≠ [] ∨ minPositional ≤ point ∧ point ≤ maxPositional) :
    (readDecimal? negative (layout digits point)).isSome = true := by
  have none : (readExponent? []).isSome = true := rfl
  have zeros : ∀ count, ∀ c ∈ List.replicate count '0', c.isDigit = true := fun count c member => by
    rw [List.eq_of_mem_replicate member]
    rfl
  unfold layout
  -- The point stands in front of the digits, behind or among them, or behind the first one.
  split
  · split
    · have leading : ∀ c ∈ ['0'], c.isDigit = true := List.forall_mem_singleton.mpr rfl
      have behind : ∀ c ∈ List.replicate (-point).toNat '0' ++ digits, c.isDigit = true := by
        simpa [or_imp, forall_and] using numeric
      simpa using read_point leading behind (List.cons_ne_nil _ _) none
    case isFalse positive =>
      have before : ∀ c ∈ digits.take point.toNat ++
          List.replicate (point.toNat - digits.length) '0', c.isDigit = true := by
        rintro c member
        obtain taken | added := List.mem_append.mp member
        · exact numeric c (List.mem_of_mem_take taken)
        · exact zeros _ c added
      have some_left : digits.take point.toNat ++
          List.replicate (point.toNat - digits.length) '0' ≠ [] := by
        intro empty
        have count := congrArg List.length empty
        rw [List.length_append, List.length_take, List.length_replicate, List.length_nil] at count
        omega
      dsimp only
      split
      · have behind : ∀ c ∈ ['0'], c.isDigit = true := List.forall_mem_singleton.mpr rfl
        simpa using read_point before behind (by simp) none
      · have behind : ∀ c ∈ digits.drop point.toNat, c.isDigit = true :=
          fun c member => numeric c (List.mem_of_mem_drop member)
        simpa using read_point before behind (List.append_ne_nil_of_left_ne_nil some_left _) none
  case isFalse outside =>
    have some_left := placed.resolve_right outside
    have reads := read_exponent_repr (point - 1)
    have before : ∀ c ∈ digits.take 1, c.isDigit = true :=
      fun c member => numeric c (List.mem_of_mem_take member)
    have behind : ∀ c ∈ digits.drop 1, c.isDigit = true :=
      fun c member => numeric c (List.mem_of_mem_drop member)
    have first : digits.take 1 ≠ [] := by simpa using some_left
    dsimp only
    split
    · simpa using read_whole before first reads
    · simpa using read_point before behind (by simp [first]) reads

theorem of_digit_chars_zeros {digits : List Char} (zeros : ∀ c ∈ digits, c = '0') :
    Nat.ofDigitChars 10 digits 0 = 0 := by
  obtain ⟨count, rfl⟩ : ∃ count, digits = List.replicate count '0' :=
    ⟨_, List.eq_replicate_of_mem zeros⟩
  induction count with
  | zero => rfl
  | succ count induction => exact induction fun c member => List.eq_of_mem_replicate member

theorem digits_left {number : Nat} (positive : number ≠ 0) :
    dropTrailingZeros (Nat.toDigits 10 number) ≠ [] := by
  intro none
  rw [dropTrailingZeros, List.reverse_eq_nil_iff, List.dropWhile_eq_nil_iff] at none
  refine positive (Nat.ofDigitChars_ten_toDigits.symm.trans (of_digit_chars_zeros ?_))
  exact fun c member => by simpa using none c (List.mem_reverse.mpr member)

theorem trailing_zeros_digits {digits : List Char} (numeric : ∀ c ∈ digits, c.isDigit = true) :
    ∀ c ∈ dropTrailingZeros digits, c.isDigit = true := by
  intro c member
  have member := (List.dropWhile_sublist _).mem (List.mem_reverse.mp member)
  exact numeric c (List.mem_reverse.mp member)

theorem interval_low_pos {mantissa : Nat} (positive : mantissa ≠ 0) (exponent : Int) :
    0 < (interval mantissa exponent).low * (interval mantissa exponent).unit := by
  have low : 0 < (interval mantissa exponent).low := by
    simp only [interval]
    split <;> omega
  have unit : 0 < (interval mantissa exponent).unit := by
    simp only [interval, Nat.one_shiftLeft]
    exact Nat.two_pow_pos _
  exact Nat.mul_pos low unit

/-- Zero does not round to a positive number. -/
theorem holds_pos {range : Interval} (positive : 0 < range.low * range.unit)
    {scale step candidate : Nat} (scaled : 0 < scale)
    (holds : range.holds scale step candidate = true) : candidate ≠ 0 := by
  rintro rfl
  have low : 0 < range.low * range.unit * scale := Nat.mul_pos positive scaled
  simp only [Interval.holds, Nat.zero_mul] at holds
  split at holds <;> simp only [Bool.and_eq_true, decide_eq_true_eq] at holds <;> omega

theorem best_pos {range : Interval} (positive : 0 < range.low * range.unit) {count digits : Nat}
    (found : range.best? count = some digits) : digits ≠ 0 := by
  have scaled : 0 < Nat.pow 10 (count - range.power).toNat := Nat.pow_pos (by decide)
  simp only [Interval.best?] at found
  split at found
  case h_1 below above =>
    have some_below := holds_pos positive scaled below
    cases found
    split
    · exact some_below
    · exact Nat.succ_ne_zero _
  case h_2 below above =>
    cases found
    exact holds_pos positive scaled below
  case h_3 below above =>
    cases found
    exact Nat.succ_ne_zero _
  case h_4 => cases found

theorem shortest_cases {mantissa : Nat} (positive : mantissa ≠ 0) (exponent : Int) :
    shortest mantissa exponent = (0, 0) ∨ (shortest mantissa exponent).1 ≠ 0 := by
  unfold shortest
  dsimp only
  generalize same : List.findSome? _ _ = found
  cases found with
  | none => exact Or.inl rfl
  | some pair =>
      obtain ⟨index, -, given⟩ := List.exists_of_findSome?_eq_some same
      obtain ⟨digits, best, rfl⟩ := Option.map_eq_some_iff.mp given
      exact Or.inr (best_pos (interval_low_pos positive exponent) best)

theorem magnitude_text_read (negative : Bool) (mantissa : Nat) (exponent : Int) :
    (readDecimal? negative (magnitudeText mantissa exponent)).isSome = true := by
  unfold magnitudeText
  split
  · have zero : ∀ c ∈ ['0'], c.isDigit = true := List.forall_mem_singleton.mpr rfl
    have none : (readExponent? []).isSome = true := rfl
    simpa using read_point zero zero (List.cons_ne_nil _ _) none
  case isFalse positive =>
    have placed : dropTrailingZeros (Nat.toDigits 10 (shortest mantissa exponent).1) ≠ [] ∨
        minPositional ≤ (shortest mantissa exponent).2 +
            (Nat.toDigits 10 (shortest mantissa exponent).1).length ∧
          (shortest mantissa exponent).2 +
            (Nat.toDigits 10 (shortest mantissa exponent).1).length ≤ maxPositional := by
      obtain none | found := shortest_cases positive exponent
      · rw [none]
        exact Or.inr (by decide)
      · exact Or.inl (digits_left found)
    exact layout_read (trailing_zeros_digits (Integer.digits_of_number _)) placed

theorem magnitude_text_written (mantissa : Nat) (exponent : Int) :
    ∀ c ∈ magnitudeText mantissa exponent, isWritten c = true := by
  unfold magnitudeText
  split
  · simp [isWritten]
  · exact layout_written _ (trailing_zeros_digits (Integer.digits_of_number _))

theorem read_magnitude_of_decimal {text : List Char}
    (read : (readDecimal? negative text).isSome = true) :
    (readMagnitude? negative text).isSome = true := by
  unfold readMagnitude?
  dsimp only
  split
  · rfl
  · split
    · rfl
    · exact read

/-- A decimal is read as a number, with a sign or without. -/
theorem read_signed {text : List Char} {negative : Bool}
    (read : ∀ negative, (readDecimal? negative text).isSome = true) :
    (read? (signed negative text)).isSome = true := by
  have sign : ∀ mark rest, text = mark :: rest → mark ≠ '-' ∧ mark ≠ '+' := by
    rintro mark rest rfl
    constructor <;> rintro rfl <;> exact absurd (read true) (by simp [readDecimal?])
  cases negative with
  | true => exact read_magnitude_of_decimal (read true)
  | false =>
      change (read? text).isSome = true
      unfold read?
      split
      case h_1 rest => exact absurd rfl (sign '-' rest rfl).1
      case h_2 rest => exact absurd rfl (sign '+' rest rfl).2
      case h_3 => exact read_magnitude_of_decimal (read false)

theorem written_not_blank {c : Char} (written : isWritten c = true) : Text.isBlank c = false := by
  rw [isWritten, Bool.or_eq_true, List.contains_iff_mem] at written
  obtain digit | mark := written
  · exact Text.digit_not_blank digit
  · rcases (by simpa using mark : c = '.' ∨ c = 'e' ∨ c = '-') with rfl | rfl | rfl <;> rfl

theorem signed_solid {text : List Char} (negative : Bool)
    (solid : ∀ c ∈ text, Text.isBlank c = false) :
    ∀ c ∈ signed negative text, Text.isBlank c = false := by
  cases negative with
  | false => exact solid
  | true => exact List.forall_mem_cons.mpr ⟨rfl, solid⟩

theorem text_cases (x : Float) :
    (text x).toList = ['N', 'a', 'N'] ∨
    (∃ negative, (text x).toList = signed negative ['i', 'n', 'f']) ∨
    ∃ negative mantissa exponent,
      (text x).toList = signed negative (magnitudeText mantissa exponent) := by
  unfold text
  split
  · exact Or.inl (by simp)
  case h_2 negative same => exact Or.inr (Or.inl ⟨negative, by simp⟩)
  case h_3 negative mantissa exponent same =>
    exact Or.inr (Or.inr ⟨negative, mantissa, exponent, String.toList_ofList⟩)

theorem text_read (x : Float) : (read? (text x).toList).isSome = true := by
  obtain nan | ⟨negative, infinite⟩ | ⟨negative, mantissa, exponent, finite⟩ := text_cases x
  · rw [nan]
    rfl
  · rw [infinite]
    cases negative <;> rfl
  · rw [finite]
    exact read_signed fun negative => magnitude_text_read negative mantissa exponent

theorem text_solid (x : Float) : ∀ c ∈ (text x).toList, Text.isBlank c = false := by
  obtain nan | ⟨negative, infinite⟩ | ⟨negative, mantissa, exponent, finite⟩ := text_cases x
  · rw [nan]
    simp [Text.isBlank]
  · rw [infinite]
    exact signed_solid negative (by simp [Text.isBlank])
  · rw [finite]
    exact signed_solid negative fun c member =>
      written_not_blank (magnitude_text_written mantissa exponent c member)

end TreeScript.Double

namespace TreeScript.Integer

theorem text_not_empty (word : Int64) : (text word).toList ≠ [] := by
  rw [text, repr_eq]
  simp [Nat.toDigits_ne_nil]

theorem text_solid (word : Int64) : ∀ c ∈ (text word).toList, Text.isBlank c = false :=
  fun c member => Double.written_not_blank (Double.repr_written word.toInt c member)

end TreeScript.Integer

namespace TreeScript.Number

def Padded (word : Int64) (text : String) : Prop :=
  ∃ left right : List Char, (∀ c ∈ left, Text.isBlank c = true) ∧
    (∀ c ∈ right, Text.isBlank c = true) ∧
    text = String.ofList (left ++ (Integer.text word).toList ++ right)

theorem Padded.trimmed {word : Int64} {text : String} (padded : Padded word text) :
    Text.trimmed text.toList = (Integer.text word).toList := by
  obtain ⟨left, right, blank, blank', rfl⟩ := padded
  rw [String.toList_ofList]
  exact Text.trimmed_padded blank (Integer.text_not_empty word) (Integer.text_solid word) blank'

theorem of_value_padded {word : Int64} {text : String} (padded : Padded word text) :
    ofValue (.string text) = ofValue (.int word) := by
  simp only [ofValue, padded.trimmed, Integer.read_text]

theorem of_value_integer_text (word : Int64) :
    ofValue (.string (Integer.text word)) = .ok (.integer word) := by
  refine of_value_padded ⟨[], [], by simp, by simp, ?_⟩
  rw [List.nil_append, List.append_nil, String.ofList_toList]

theorem of_value_double_text (x : Float) :
    ∃ number, ofValue (.string (Double.text x)) = .ok number := by
  have read := Double.text_read x
  have some_left : (Double.text x).toList ≠ [] := by
    intro empty
    rw [empty] at read
    cases read
  simp only [ofValue, Text.trimmed_solid some_left (Double.text_solid x)]
  cases Integer.read? (Double.text x).toList with
  | some word => exact ⟨_, rfl⟩
  | none =>
      obtain ⟨value, found⟩ := Option.isSome_iff_exists.mp read
      exact ⟨.double value, by rw [found]⟩

end TreeScript.Number
