import TreeScript.Proofs.Answers
import TreeScript.Proofs.Rounding
/-!
# Arithmetic on integers

The functions of the prelude that calculate, called with integers only. Addition, subtraction and
multiplication follow the integers without bounds, and stop with an error at the first result that
has no word. A division stays among the integers while it comes out even, and from the first divisor
that does not divide it goes on with doubles. A zero is noticed where it is reached, and the one
quotient of words that has no word is an error, so nothing ever wraps.
-/

set_option autoImplicit false

namespace TreeScript.Integer

def Fits (value : Int) : Prop := -2 ^ 63 ≤ value ∧ value < 2 ^ 63

theorem fits_word (word : Int64) : Fits word.toInt := ⟨Int64.le_toInt word, Int64.toInt_lt word⟩

theorem ofInt_of_fits {value : Int} (fits : Fits value) :
    ∃ word, ofInt? value = some word ∧ word.toInt = value := by
  have same := Int64.toInt_ofInt_of_le fits.1 fits.2
  have found := ofInt?_toInt (Int64.ofInt value)
  rw [same] at found
  exact ⟨_, found, same⟩

theorem ofInt_eq_none {value : Int} (large : ¬ Fits value) : ofInt? value = none := by
  cases found : ofInt? value with
  | none => rfl
  | some word => exact absurd (ofInt?_eq_some found ▸ fits_word word) large

end TreeScript.Integer

namespace TreeScript.Arithmetic

section Exactness

variable {operation : Int → Int → Int} {onIntegers : Int64 → Int64 → Option Int64}

/-- The result of an operation carried out from left to right, in integers without bounds. -/
def total (operation : Int → Int → Int) (first : Int64) (rest : List Int64) : Int :=
  rest.foldl (fun value word => operation value word.toInt) first.toInt

/-- On words the operation gives what it gives on integers, if that has a word. -/
def Checked (operation : Int → Int → Int) (onIntegers : Int64 → Int64 → Option Int64) : Prop :=
  ∀ a b, onIntegers a b = Integer.ofInt? (operation a.toInt b.toInt)

theorem total_cons {first word next : Int64} (rest : List Int64)
    (same : word.toInt = operation first.toInt next.toInt) :
    total operation first (next :: rest) = total operation word rest := by
  rw [total, List.foldl_cons, ← same, total]

def StaysInRange (operation : Int → Int → Int) (first : Int64) (rest : List Int64) : Prop :=
  ∀ count ≤ rest.length, Integer.Fits (total operation first (rest.take count))

theorem stays_in_range_nil (first : Int64) : StaysInRange operation first [] := by
  intro count within
  rw [List.take_nil]
  exact Integer.fits_word first

theorem stays_in_range_cons {first next : Int64} {rest : List Int64} :
    StaysInRange operation first (next :: rest) ↔
      ∃ word : Int64, word.toInt = operation first.toInt next.toInt ∧
        StaysInRange operation word rest := by
  constructor
  · intro stays
    have fits : Integer.Fits (operation first.toInt next.toInt) := stays 1 (by simp)
    obtain ⟨word, -, same⟩ := Integer.ofInt_of_fits fits
    refine ⟨word, same, fun count within => ?_⟩
    have later := stays (count + 1) (by simpa using within)
    rwa [List.take_succ_cons, total_cons _ same] at later
  · rintro ⟨word, same, stays⟩ count within
    cases count with
    | zero => exact Integer.fits_word first
    | succ count =>
        rw [List.take_succ_cons, total_cons _ same]
        exact stays count (by simpa using within)

theorem combine_checked (name : String) (checked : Checked operation onIntegers)
    (onDoubles : Float → Float → Float) (first next : Int64) :
    Number.combine name onIntegers onDoubles (.integer first) (.integer next) =
      match Integer.ofInt? (operation first.toInt next.toInt) with
      | some word => .ok (.integer word)
      | none => .error (.overflow name) := by
  cases found : Integer.ofInt? (operation first.toInt next.toInt) with
  | some word => simp only [Number.combine, checked first next, found]
  | none => simp only [Number.combine, checked first next, found]

theorem accumulate_cons (step : Number → Number → Except Fault Number) (first : Number)
    (next : Int64) (rest : List Value) :
    Number.accumulate step first (.int next :: rest) =
      step first (.integer next) >>= fun value => Number.accumulate step value rest :=
  rfl

theorem fold_integers (name needed : String) (step : Number → Number → Except Fault Number)
    (first : Int64) (rest : List Int64) :
    Prelude.fold name needed step ((first :: rest).map Value.int) =
      Number.accumulate step (.integer first) (rest.map Value.int) >>=
        fun value => .ok value.toValue :=
  rfl

/-- A calculation with words ends with the exact result, or at the first one out of range. -/
theorem accumulate_checked (name : String) (checked : Checked operation onIntegers)
    (onDoubles : Float → Float → Float) (first : Int64) (rest : List Int64) :
    (StaysInRange operation first rest ∧ ∃ word, word.toInt = total operation first rest ∧
      Number.accumulate (Number.combine name onIntegers onDoubles) (.integer first)
        (rest.map Value.int) = .ok (.integer word)) ∨
    (¬ StaysInRange operation first rest ∧
      Number.accumulate (Number.combine name onIntegers onDoubles) (.integer first)
        (rest.map Value.int) = .error (.overflow name)) := by
  induction rest generalizing first with
  | nil => exact Or.inl ⟨stays_in_range_nil first, first, rfl, rfl⟩
  | cons next rest induction =>
      rw [List.map_cons, accumulate_cons, combine_checked name checked, stays_in_range_cons]
      -- The first result either has a word, from which the rest goes on, or ends the calculation.
      by_cases fits : Integer.Fits (operation first.toInt next.toInt)
      · obtain ⟨word, found, same⟩ := Integer.ofInt_of_fits fits
        rw [found, total_cons rest same]
        obtain ⟨stays, ends⟩ | ⟨leaves, ends⟩ := induction word
        · exact Or.inl ⟨⟨word, same, stays⟩, ends⟩
        · refine Or.inr ⟨?_, ends⟩
          rintro ⟨other, same', stays⟩
          obtain rfl := Int64.toInt_inj.mp (same'.trans same.symm)
          exact leaves stays
      · rw [Integer.ofInt_eq_none fits]
        refine Or.inr ⟨?_, rfl⟩
        rintro ⟨word, same, -⟩
        exact fits (same ▸ Integer.fits_word word)

/-- A function of the prelude is an operation on integers: it gives the exact result if every
result on the way is in range, and else the error that one of them is not. -/
structure ExactOrOverflow (name : String) (operation : Int → Int → Int) (first : Int64)
    (rest : List Int64) : Prop where
  whole : (∃ word : Int64, Prelude.Answers name ((first :: rest).map .int) (.ok (.int word)) ∧
    word.toInt = total operation first rest) ↔ StaysInRange operation first rest
  overflow : ¬ StaysInRange operation first rest →
    Prelude.Fails name ((first :: rest).map .int) ("Integer overflow in " ++ name)

theorem exact_or_overflow {name needed : String} {arity : Arity}
    (checked : Checked operation onIntegers) (onDoubles : Float → Float → Float)
    (found : ∃ isPure docs, Prelude.registry.find? name =
      some (Prelude.ofArguments name arity isPure docs
        (Prelude.fold name needed (Number.combine name onIntegers onDoubles))))
    {first : Int64} {rest : List Int64} (accepted : arity.accepts (rest.length + 1) = true) :
    ExactOrOverflow name operation first rest := by
  have answer := Prelude.answers_of_arguments found ((first :: rest).map Value.int)
    (by simpa using accepted)
  rw [fold_integers] at answer
  obtain ⟨stays, word, same, ends⟩ | ⟨leaves, ends⟩ :=
    accumulate_checked name checked onDoubles first rest
  · rw [ends] at answer
    exact ⟨⟨fun _ => stays, fun _ => ⟨word, answer, same⟩⟩, fun leaves => absurd stays leaves⟩
  · rw [ends] at answer
    refine ⟨⟨?_, fun stays => absurd stays leaves⟩, fun _ => ⟨_, answer, rfl⟩⟩
    rintro ⟨word, given, -⟩
    exact nomatch answer.unique given

end Exactness

section Division

variable {first next quotient : Int64} {rest divisors : List Int64}

theorem divisor_is_zero_iff (word : Int64) :
    ((Number.integer word).toDouble == 0.0) = true ↔ word = 0 :=
  Double.of_integer_beq_zero_iff word

theorem toInt_ne_zero (nonzero : next ≠ 0) : next.toInt ≠ 0 := fun zero =>
  nonzero (Int64.toInt_inj.mp zero)

theorem divide_zero (value : Number) :
    Number.divide value (.integer 0) = .error .divisionByZero := by
  unfold Number.divide
  rw [if_pos ((divisor_is_zero_iff 0).mpr rfl)]

theorem divide_double (value : Float) (nonzero : next ≠ 0) :
    Number.divide (.double value) (.integer next) =
      .ok (.double (value / Double.ofInteger next)) := by
  unfold Number.divide
  rw [if_neg (mt (divisor_is_zero_iff next).mp nonzero)]
  rfl

theorem divide_overflow :
    Number.divide (.integer Int64.minValue) (.integer (-1)) = .error (.overflow "divide") := by
  rw [Number.divide, if_neg (mt (divisor_is_zero_iff _).mp (by decide))]
  rfl

/-- A quotient is out of range only where the sign of the least integer is turned. -/
theorem quotient_eq (nonzero : next ≠ 0) (apart : ¬ (first = Int64.minValue ∧ next = -1)) :
    ∃ quotient, Integer.quotient? first next = some quotient ∧
      quotient.toInt = first.toInt.tdiv next.toInt := by
  have fits : Integer.Fits (first.toInt.tdiv next.toInt) := by
    have dividend := Integer.fits_word first
    have divisor := toInt_ne_zero nonzero
    have size : (first.toInt.tdiv next.toInt).natAbs = first.toInt.natAbs / next.toInt.natAbs :=
      Int.natAbs_tdiv _ _
    have apart' : ¬ (first.toInt = -2 ^ 63 ∧ next.toInt = -1) := fun same =>
      apart ⟨Int64.toInt_inj.mp same.1, Int64.toInt_inj.mp same.2⟩
    unfold Integer.Fits at *
    -- A divisor of two or more at least halves, and of the others one keeps and one turns the sign.
    rcases Nat.lt_or_ge 1 next.toInt.natAbs with more | one
    · have half : first.toInt.natAbs / next.toInt.natAbs ≤ first.toInt.natAbs / 2 :=
        Nat.div_le_div_left more (by decide)
      omega
    · rcases (by omega : next.toInt = 1 ∨ next.toInt = -1) with same | same
      · rw [same, Int.tdiv_one]
        exact dividend
      · rw [same, Int.tdiv_neg, Int.tdiv_one]
        omega
  obtain ⟨quotient, found, same⟩ := Integer.ofInt_of_fits fits
  exact ⟨quotient, by rw [Integer.quotient?, if_neg nonzero, found], same⟩

theorem remainder_eq (nonzero : next ≠ 0) (apart : ¬ (first = Int64.minValue ∧ next = -1)) :
    ∃ rest, Integer.remainder? first next = some rest ∧
      rest.toInt = first.toInt.tmod next.toInt := by
  have fits : Integer.Fits (first.toInt.tmod next.toInt) := by
    have divisor := Integer.fits_word next
    have size := Int.natAbs_tmod first.toInt next.toInt
    have smaller := Nat.mod_lt first.toInt.natAbs (Int.natAbs_pos.mpr (toInt_ne_zero nonzero))
    unfold Integer.Fits at *
    omega
  obtain ⟨rest, found, same⟩ := Integer.ofInt_of_fits fits
  exact ⟨rest, by rw [Integer.remainder?, if_neg nonzero, if_neg apart, found], same⟩

/-- A division of words that does not fail gives the integer quotient, or a double if there is
none. -/
theorem divide_words (nonzero : next ≠ 0) (apart : ¬ (first = Int64.minValue ∧ next = -1)) :
    (∃ quotient : Int64, quotient.toInt * next.toInt = first.toInt ∧
      Number.divide (.integer first) (.integer next) = .ok (.integer quotient)) ∨
    (¬ next.toInt ∣ first.toInt ∧ Number.divide (.integer first) (.integer next) =
      .ok (.double (Double.ofInteger first / Double.ofInteger next))) := by
  obtain ⟨rest, remains, same⟩ := remainder_eq nonzero apart
  obtain ⟨quotient, given, same'⟩ := quotient_eq nonzero apart
  rw [Number.divide, if_neg (mt (divisor_is_zero_iff next).mp nonzero)]
  simp only [remains, given]
  by_cases divides : next.toInt ∣ first.toInt
  · have none : rest = 0 := by
      rw [← Int64.toInt_inj, same, Int.tmod_eq_zero_of_dvd divides]
      rfl
    exact Or.inl ⟨quotient, same' ▸ Int.tdiv_mul_cancel divides, if_pos none⟩
  · have some_rest : rest ≠ 0 := by
      rintro rfl
      exact divides (Int.dvd_of_tmod_eq_zero same.symm)
    exact Or.inr ⟨divides, if_neg some_rest⟩

/-- The integer that is left after a division by all of the divisors, if there is one. -/
def IsQuotient (first : Int64) (divisors : List Int64) (quotient : Int) : Prop :=
  (divisors.map Int64.toInt).prod ≠ 0 ∧ quotient * (divisors.map Int64.toInt).prod = first.toInt

/-- The least integer is left, and the divisor in the next place turns its sign. -/
def Overflows (first : Int64) (divisors : List Int64) (place : Nat) : Prop :=
  divisors[place]? = some (-1) ∧ IsQuotient first (divisors.take place) (-2 ^ 63)

def StaysWhole (first : Int64) (divisors : List Int64) : Prop :=
  ∀ count ≤ divisors.length, ∃ quotient, Integer.Fits quotient ∧
    IsQuotient first (divisors.take count) quotient

/-- There is a zero among the divisors, and no overflow in front of it. -/
def ReachesZero (first : Int64) (divisors : List Int64) : Prop :=
  ∃ place, divisors[place]? = some 0 ∧ ∀ earlier < place, ¬ Overflows first divisors earlier

/-- The quotients are integers up to a divisor that does not divide, and doubles from there on. -/
def LeavesIntegers (first : Int64) (divisors : List Int64) (result : Float) : Prop :=
  ∃ (before : List Int64) (next : Int64) (after : List Int64) (quotient : Int64),
    divisors = before ++ next :: after ∧ IsQuotient first before quotient.toInt ∧
    ¬ next.toInt ∣ quotient.toInt ∧
    result = after.foldl (fun value word => value / Double.ofInteger word)
      (Double.ofInteger quotient / Double.ofInteger next)

theorem is_quotient_nil : IsQuotient first [] first.toInt := ⟨by simp, by simp⟩

theorem is_quotient_cons {value : Int} (nonzero : next ≠ 0)
    (whole : quotient.toInt * next.toInt = first.toInt) :
    IsQuotient first (next :: rest) value ↔ IsQuotient quotient rest value := by
  have divisor := toInt_ne_zero nonzero
  rw [IsQuotient, IsQuotient, List.map_cons, List.prod_cons, ← whole, mul_ne_zero_iff]
  constructor
  · rintro ⟨⟨-, others⟩, same⟩
    refine ⟨others, mul_right_cancel₀ divisor ?_⟩
    rw [← same]
    ring
  · rintro ⟨others, same⟩
    refine ⟨⟨divisor, others⟩, ?_⟩
    rw [← same]
    ring

inductive Division : Int64 → List Int64 → Except Fault Number → Prop
  | done (first : Int64) : Division first [] (.ok (.integer first))
  | zero (first : Int64) (rest : List Int64) : Division first (0 :: rest) (.error .divisionByZero)
  | overflow (rest : List Int64) :
      Division Int64.minValue (-1 :: rest) (.error (.overflow "divide"))
  | whole {first next quotient : Int64} {rest : List Int64} {result : Except Fault Number} :
      next ≠ 0 → quotient.toInt * next.toInt = first.toInt → Division quotient rest result →
      Division first (next :: rest) result
  | inexact {first next : Int64} {rest : List Int64} :
      next ≠ 0 → ¬ next.toInt ∣ first.toInt →
      Division first (next :: rest) (if 0 ∈ rest then .error .divisionByZero else
        .ok (.double (rest.foldl (fun value word => value / Double.ofInteger word)
          (Double.ofInteger first / Double.ofInteger next))))

theorem accumulate_doubles (value : Float) (rest : List Int64) :
    Number.accumulate Number.divide (.double value) (rest.map Value.int) =
      if 0 ∈ rest then .error .divisionByZero else
        .ok (.double (rest.foldl (fun value word => value / Double.ofInteger word) value)) := by
  induction rest generalizing value with
  | nil => rfl
  | cons next rest induction =>
      rw [List.map_cons, accumulate_cons]
      by_cases zero : next = 0
      · subst zero
        rw [divide_zero, if_pos List.mem_cons_self]
        rfl
      · rw [divide_double value zero]
        have same : (0 ∈ next :: rest) ↔ 0 ∈ rest := by simp [Ne.symm zero]
        simp only [same]
        exact induction _

theorem accumulate_division (first : Int64) (divisors : List Int64) :
    Division first divisors
      (Number.accumulate Number.divide (.integer first) (divisors.map Value.int)) := by
  induction divisors generalizing first with
  | nil => exact .done first
  | cons next rest induction =>
      rw [List.map_cons, accumulate_cons]
      -- The zero is looked for first, then the overflow, and only then is there a quotient.
      by_cases zero : next = 0
      · subst zero
        rw [divide_zero]
        exact .zero first rest
      · by_cases turns : first = Int64.minValue ∧ next = -1
        · obtain ⟨rfl, rfl⟩ := turns
          rw [divide_overflow]
          exact .overflow rest
        · obtain ⟨quotient, whole, same⟩ | ⟨inexact, same⟩ := divide_words zero turns
          · rw [same]
            exact .whole zero whole (induction quotient)
          · rw [same]
            have ends := accumulate_doubles (Double.ofInteger first / Double.ofInteger next) rest
            change Division _ _ (Number.accumulate Number.divide (.double _) _)
            rw [ends]
            exact .inexact zero inexact

theorem overflows_cons {place : Nat} (nonzero : next ≠ 0)
    (whole : quotient.toInt * next.toInt = first.toInt) :
    Overflows first (next :: rest) (place + 1) ↔ Overflows quotient rest place := by
  rw [Overflows, Overflows, List.getElem?_cons_succ, List.take_succ_cons,
    is_quotient_cons nonzero whole]

theorem toInt_minus_one : (-1 : Int64).toInt = -1 := by decide

/-- No word is the least integer with its sign turned. -/
theorem turned_not_fits {value : Int} (turns : value * (-1 : Int64).toInt = -2 ^ 63) :
    ¬ Integer.Fits value := by
  rw [toInt_minus_one] at turns
  unfold Integer.Fits
  omega

/-- A division that gives a word does not turn the sign of the least integer. -/
theorem no_overflow_here (whole : quotient.toInt * next.toInt = first.toInt) :
    ¬ Overflows first (next :: rest) 0 := by
  rintro ⟨turns, -, least⟩
  cases turns
  have least : -2 ^ 63 * 1 = first.toInt := least
  exact turned_not_fits (whole.trans (least.symm.trans (mul_one _))) (Integer.fits_word quotient)

/-- After a divisor that does not divide there are no integers left. -/
theorem not_is_quotient {value : Int} (inexact : ¬ next.toInt ∣ first.toInt) :
    ¬ IsQuotient first (next :: rest) value := by
  rintro ⟨-, whole⟩
  rw [List.map_cons, List.prod_cons, ← mul_assoc, mul_comm value, mul_assoc] at whole
  exact inexact ⟨_, whole.symm⟩

theorem no_overflow_inexact (inexact : ¬ next.toInt ∣ first.toInt) (place : Nat) :
    ¬ Overflows first (next :: rest) place := by
  rintro ⟨turns, least⟩
  cases place with
  | zero =>
      cases turns
      rw [toInt_minus_one] at inexact
      exact inexact ⟨-first.toInt, ((neg_mul_neg _ _).trans (one_mul _)).symm⟩
  | succ place => exact not_is_quotient inexact least

def Accounts (first : Int64) (divisors : List Int64) : Except Fault Number → Prop
  | .ok (.integer quotient) =>
      IsQuotient first divisors quotient.toInt ∧ StaysWhole first divisors
  | .ok (.double value) =>
      0 ∉ divisors ∧ (∀ place, ¬ Overflows first divisors place) ∧
        LeavesIntegers first divisors value
  | .error fault =>
      fault = .divisionByZero ∧ ReachesZero first divisors ∨
        fault = .overflow "divide" ∧ ∃ place, Overflows first divisors place

theorem stays_whole_cons (nonzero : next ≠ 0)
    (whole : quotient.toInt * next.toInt = first.toInt) (stays : StaysWhole quotient rest) :
    StaysWhole first (next :: rest) := by
  intro count within
  cases count with
  | zero => exact ⟨first.toInt, Integer.fits_word first, is_quotient_nil⟩
  | succ count =>
      obtain ⟨value, fits, left⟩ := stays count (by simpa using within)
      exact ⟨value, fits, (is_quotient_cons nonzero whole).mpr left⟩

theorem no_overflow_cons (nonzero : next ≠ 0)
    (whole : quotient.toInt * next.toInt = first.toInt) {place : Nat}
    (none : ∀ earlier < place, ¬ Overflows quotient rest earlier) :
    ∀ earlier < place + 1, ¬ Overflows first (next :: rest) earlier := by
  intro earlier before
  cases earlier with
  | zero => exact no_overflow_here whole
  | succ earlier =>
      exact mt (overflows_cons nonzero whole).mp (none earlier (Nat.lt_of_succ_lt_succ before))

theorem leaves_integers_cons {value : Float} (nonzero : next ≠ 0)
    (whole : quotient.toInt * next.toInt = first.toInt)
    (leaves : LeavesIntegers quotient rest value) : LeavesIntegers first (next :: rest) value := by
  obtain ⟨before, last, after, left, rfl, exact_before, inexact, same⟩ := leaves
  exact ⟨next :: before, last, after, left, rfl, (is_quotient_cons nonzero whole).mpr exact_before,
    inexact, same⟩

theorem accounts_cons {result : Except Fault Number} (nonzero : next ≠ 0)
    (whole : quotient.toInt * next.toInt = first.toInt) (rests : Accounts quotient rest result) :
    Accounts first (next :: rest) result := by
  rcases result with fault | value | value
  · obtain ⟨rfl, place, found, none⟩ | ⟨rfl, place, overflows⟩ := rests
    · exact Or.inl ⟨rfl, place + 1, found, no_overflow_cons nonzero whole none⟩
    · exact Or.inr ⟨rfl, place + 1, (overflows_cons nonzero whole).mpr overflows⟩
  · exact ⟨(is_quotient_cons nonzero whole).mpr rests.1, stays_whole_cons nonzero whole rests.2⟩
  · obtain ⟨others, none, leaves⟩ := rests
    refine ⟨by simp [Ne.symm nonzero, others], fun place => ?_,
      leaves_integers_cons nonzero whole leaves⟩
    exact no_overflow_cons nonzero whole (fun earlier _ => none earlier) place (Nat.lt_succ_self _)

theorem Division.accounts {result : Except Fault Number}
    (division : Division first divisors result) : Accounts first divisors result := by
  induction division with
  | done first =>
      refine ⟨is_quotient_nil, fun count within => ⟨first.toInt, Integer.fits_word first, ?_⟩⟩
      rw [List.take_nil]
      exact is_quotient_nil
  | zero first rest => exact Or.inl ⟨rfl, 0, rfl, fun _ none => absurd none (Nat.not_lt_zero _)⟩
  | overflow rest => exact Or.inr ⟨rfl, 0, rfl, is_quotient_nil⟩
  | whole nonzero whole _ induction => exact accounts_cons nonzero whole induction
  | @inexact first next rest nonzero inexact =>
      have none : ∀ place, ¬ Overflows first (next :: rest) place := no_overflow_inexact inexact
      by_cases zero : 0 ∈ rest
      · rw [if_pos zero]
        obtain ⟨place, found⟩ := List.mem_iff_getElem?.mp zero
        exact Or.inl ⟨rfl, place + 1, found, fun earlier _ => none earlier⟩
      · rw [if_neg zero]
        exact ⟨by simp [Ne.symm nonzero, zero], none, [], next, rest, first, rfl, is_quotient_nil,
          inexact, rfl⟩

theorem no_zero_of_quotient {value : Int} (left : IsQuotient first divisors value) :
    0 ∉ divisors := fun zero =>
  left.1 (List.prod_eq_zero (List.mem_map_of_mem zero))

theorem is_quotient_snoc {value other : Int} (left : IsQuotient first divisors value)
    (further : IsQuotient first (divisors ++ [next]) other) : other * next.toInt = value := by
  have whole := further.2
  rw [List.map_append, List.prod_append, List.map_singleton, List.prod_singleton, ← left.2] at whole
  refine mul_right_cancel₀ left.1 ?_
  rw [← whole]
  ring

theorem no_overflow_of_stays (stays : StaysWhole first divisors) (place : Nat) :
    ¬ Overflows first divisors place := by
  rintro ⟨turns, least⟩
  have within : place < divisors.length := (List.getElem?_eq_some_iff.mp turns).1
  obtain ⟨value, fits, further⟩ := stays (place + 1) within
  rw [List.take_add_one, turns] at further
  exact turned_not_fits (is_quotient_snoc least further) fits

/-- A zero that comes after an overflow is not reached. -/
theorem no_zero_of_overflow {place : Nat} (overflows : Overflows first divisors place) :
    ¬ ReachesZero first divisors := by
  rintro ⟨other, zero, none⟩
  rcases Nat.lt_trichotomy place other with before | rfl | after
  · exact none place before overflows
  · cases zero.symm.trans overflows.1
  · refine no_zero_of_quotient overflows.2 (List.mem_iff_getElem?.mpr ⟨other, ?_⟩)
    rw [List.getElem?_take_of_lt after, zero]

theorem not_stays_of_leaves {value : Float} (leaves : LeavesIntegers first divisors value) :
    ¬ StaysWhole first divisors := by
  obtain ⟨before, next, after, quotient, rfl, left, inexact, -⟩ := leaves
  intro stays
  obtain ⟨other, -, further⟩ := stays (before.length + 1) (by simp)
  rw [List.take_length_add_append] at further
  exact inexact ⟨other, by rw [← is_quotient_snoc left further, Int.mul_comm]⟩

/-- A division of words gives an integer only if it comes out even at each divisor, and it says where
it fails. In all other cases it leaves the integers. -/
structure ExactDivision (first : Int64) (divisors : List Int64) : Prop where
  whole : ∀ quotient : Int64,
    Prelude.Answers "divide" ((first :: divisors).map .int) (.ok (.int quotient)) ↔
      IsQuotient first divisors quotient.toInt ∧ StaysWhole first divisors
  zero : Prelude.Fails "divide" ((first :: divisors).map .int) "Division by 0!" ↔
    ReachesZero first divisors
  overflow : Prelude.Fails "divide" ((first :: divisors).map .int) "Integer overflow in divide" ↔
    ∃ place, Overflows first divisors place
  otherwise : ¬ StaysWhole first divisors → ¬ ReachesZero first divisors →
    (∀ place, ¬ Overflows first divisors place) → ∃ value, LeavesIntegers first divisors value ∧
      Prelude.Answers "divide" ((first :: divisors).map .int) (.ok (.double value))

theorem divide_answers (first second : Int64) (others : List Int64) :
    ∃ result, Accounts first (second :: others) result ∧
      Prelude.Answers "divide" ((first :: second :: others).map .int)
        (result >>= fun value => .ok value.toValue) := by
  have found : ∃ isPure docs, Prelude.registry.find? "divide" =
      some (Prelude.ofArguments "divide" (.atLeast 2) isPure docs Prelude.divide) := ⟨_, _, rfl⟩
  have answer := Prelude.answers_of_arguments found
    ((first :: second :: others).map Value.int) (by simp [Arity.accepts])
  rw [Prelude.divide, fold_integers] at answer
  exact ⟨_, (accumulate_division first (second :: others)).accounts, answer⟩

theorem no_zero_of_stays (stays : StaysWhole first divisors) : ¬ ReachesZero first divisors := by
  rintro ⟨place, zero, -⟩
  obtain ⟨value, -, left⟩ := stays divisors.length le_rfl
  rw [List.take_length] at left
  exact no_zero_of_quotient left (List.mem_of_getElem? zero)

theorem quotient_unique {value other : Int} (left : IsQuotient first divisors value)
    (left' : IsQuotient first divisors other) : value = other :=
  mul_right_cancel₀ left.1 (left.2.trans left'.2.symm)

theorem exact_division (first second : Int64) (others : List Int64) :
    ExactDivision first (second :: others) := by
  obtain ⟨fault | quotient | value, accounts, answer⟩ := divide_answers first second others
  · have answer : Prelude.Answers _ _ (.error fault) := answer
    obtain ⟨rfl, reached⟩ | ⟨rfl, overflows⟩ := accounts
    · exact {
        whole := fun quotient => ⟨fun given => (nomatch answer.unique given),
          fun left => absurd reached (no_zero_of_stays left.2)⟩
        zero := ⟨fun _ => reached, fun _ => (answer.fails_iff _).mpr rfl⟩
        overflow := ⟨fun failed => absurd ((answer.fails_iff _).mp failed) (by decide),
          fun ⟨_, overflows⟩ => absurd reached (no_zero_of_overflow overflows)⟩
        otherwise := fun _ none => absurd reached none }
    · exact {
        whole := fun quotient => ⟨fun given => (nomatch answer.unique given),
          fun left => absurd overflows.choose_spec (no_overflow_of_stays left.2 _)⟩
        zero := ⟨fun failed => absurd ((answer.fails_iff _).mp failed) (by decide),
          fun reached => absurd reached (no_zero_of_overflow overflows.choose_spec)⟩
        overflow := ⟨fun _ => overflows, fun _ => (answer.fails_iff _).mpr rfl⟩
        otherwise := fun _ _ none => absurd overflows.choose_spec (none _) }
  · have answer : Prelude.Answers _ _ (.ok (.int quotient)) := answer
    obtain ⟨left, stays⟩ := accounts
    exact {
      whole := fun other => by
        refine ⟨fun given => ?_, fun given => ?_⟩
        · cases answer.unique given
          exact ⟨left, stays⟩
        · obtain rfl := Int64.toInt_inj.mp (quotient_unique left given.1)
          exact answer
      zero := ⟨fun failed => absurd failed (answer.not_fails _),
        fun reached => absurd reached (no_zero_of_stays stays)⟩
      overflow := ⟨fun failed => absurd failed (answer.not_fails _),
        fun overflows => absurd overflows.choose_spec (no_overflow_of_stays stays _)⟩
      otherwise := fun leaves => absurd stays leaves }
  · have answer : Prelude.Answers _ _ (.ok (.double value)) := answer
    obtain ⟨nonzero, none, leaves⟩ := accounts
    exact {
      whole := fun other => ⟨fun given => (nomatch answer.unique given),
        fun given => absurd given.2 (not_stays_of_leaves leaves)⟩
      zero := ⟨fun failed => absurd failed (answer.not_fails _),
        fun reached => absurd (List.mem_of_getElem? reached.choose_spec.1) nonzero⟩
      overflow := ⟨fun failed => absurd failed (answer.not_fails _),
        fun overflows => absurd overflows.choose_spec (none _)⟩
      otherwise := fun _ _ _ => ⟨value, leaves, answer⟩ }

/-- The remainder of words is the one of the quotient that is rounded toward zero. -/
structure ExactRemainder (a b : Int64) : Prop where
  zero : b = 0 → Prelude.Fails "modulo" [.int a, .int b] "Division by 0!"
  overflow : a = Int64.minValue ∧ b = -1 →
    Prelude.Fails "modulo" [.int a, .int b] "Integer overflow in modulo"
  fails : (∃ fault, Prelude.Answers "modulo" [.int a, .int b] (.error fault)) ↔
    b = 0 ∨ a = Int64.minValue ∧ b = -1
  whole : b ≠ 0 → ¬ (a = Int64.minValue ∧ b = -1) →
    ∃ rest : Int64, Prelude.Answers "modulo" [.int a, .int b] (.ok (.int rest)) ∧
      a.toInt = b.toInt * a.toInt.tdiv b.toInt + rest.toInt ∧
      rest.toInt.natAbs < b.toInt.natAbs ∧ (rest = 0 ∨ rest.toInt.sign = a.toInt.sign)

theorem remainder_whole (nonzero : next ≠ 0) (apart : ¬ (first = Int64.minValue ∧ next = -1)) :
    ∃ rest, Number.modulo (.integer first) (.integer next) = .ok (.integer rest) ∧
      first.toInt = next.toInt * first.toInt.tdiv next.toInt + rest.toInt ∧
      rest.toInt.natAbs < next.toInt.natAbs ∧
      (rest = 0 ∨ rest.toInt.sign = first.toInt.sign) := by
  obtain ⟨rest, remains, same⟩ := remainder_eq nonzero apart
  refine ⟨rest, ?_, ?_, ?_, ?_⟩
  · simp only [Number.modulo, if_neg nonzero, remains]
  · rw [same, Int.mul_tdiv_add_tmod]
  · rw [same, Int.natAbs_tmod]
    exact Nat.mod_lt _ (Int.natAbs_pos.mpr (toInt_ne_zero nonzero))
  · by_cases divides : next.toInt ∣ first.toInt
    · refine Or.inl (Int64.toInt_inj.mp ?_)
      rw [same, Int.tmod_eq_zero_of_dvd divides]
      rfl
    · refine Or.inr ?_
      rw [same, Int.sign_tmod, if_neg divides]

theorem exact_remainder (a b : Int64) : ExactRemainder a b := by
  have found : ∃ isPure docs, Prelude.registry.find? "modulo" =
      some (Prelude.ofArguments "modulo" (.exactly 2) isPure docs Prelude.modulo) := ⟨_, _, rfl⟩
  have answer := Prelude.answers_of_arguments found [.int a, .int b] rfl
  have runs : Prelude.modulo [.int a, .int b] =
    Number.modulo (.integer a) (.integer b) >>= fun rest => .ok rest.toValue := rfl
  rw [runs] at answer
  by_cases zero : b = 0
  · subst zero
    have answer : Prelude.Answers _ _ (.error .divisionByZero) := answer
    exact {
      zero := fun _ => (answer.fails_iff _).mpr rfl
      overflow := fun turns => nomatch turns.2
      fails := ⟨fun _ => Or.inl rfl, fun _ => ⟨_, answer⟩⟩
      whole := fun nonzero => absurd rfl nonzero }
  · by_cases turns : a = Int64.minValue ∧ b = -1
    · obtain ⟨rfl, rfl⟩ := turns
      have answer : Prelude.Answers _ _ (.error (.overflow "modulo")) := answer
      exact {
        zero := fun same => absurd same zero
        overflow := fun _ => (answer.fails_iff _).mpr rfl
        fails := ⟨fun _ => Or.inr ⟨rfl, rfl⟩, fun _ => ⟨_, answer⟩⟩
        whole := fun _ apart => absurd ⟨rfl, rfl⟩ apart }
    · obtain ⟨rest, same, whole⟩ := remainder_whole zero turns
      rw [same] at answer
      exact {
        zero := fun same => absurd same zero
        overflow := fun same => absurd same turns
        fails := ⟨fun ⟨_, failed⟩ => (nomatch answer.unique failed), fun same =>
          (same.elim zero turns).elim⟩
        whole := fun _ _ => ⟨rest, answer, whole⟩ }

end Division

section Integers

variable {first second : Int64} {rest : List Int64}

theorem exact_addition : ExactOrOverflow "add" (· + ·) first rest :=
  exact_or_overflow (fun _ _ => rfl) (· + ·) ⟨_, _, rfl⟩ (by simp [Arity.accepts])

theorem exact_subtraction : ExactOrOverflow "subtract" (· - ·) first (second :: rest) :=
  exact_or_overflow (fun _ _ => rfl) (· - ·) ⟨_, _, rfl⟩ (by simp [Arity.accepts])

theorem exact_multiplication : ExactOrOverflow "multiply" (· * ·) first rest :=
  exact_or_overflow (fun _ _ => rfl) (· * ·) ⟨_, _, rfl⟩ (by simp [Arity.accepts])

/-- No calculation with integers wraps. The arguments are those which the arities accept: one or
more for a sum and a product, two or more for a difference and a quotient, two for a remainder. -/
theorem integer_arithmetic (first second : Int64) (rest : List Int64) :
    ExactOrOverflow "add" (· + ·) first rest ∧
    ExactOrOverflow "subtract" (· - ·) first (second :: rest) ∧
    ExactOrOverflow "multiply" (· * ·) first rest ∧
    ExactDivision first (second :: rest) ∧
    ExactRemainder first second :=
  ⟨exact_addition, exact_subtraction, exact_multiplication, exact_division first second rest,
    exact_remainder first second⟩

/-- A sum that has a word is still an error if it is reached through one that has none. -/
example : Prelude.add [.int Int64.maxValue, .int 1, .int (-1)] = .error (.overflow "add") := rfl

end Integers

end TreeScript.Arithmetic
