import TreeScript.Proofs.Evaluation
import TreeScript.Proofs.NumberTexts
/-!
# Trees are told apart by their texts

The text of a tree is written for people, and no function reads it back. Still it leaves nothing
open: a tree of calls, variables and plain literals has a text that no other such tree has. A word
ends where a character stands that no word has, a quoted text ends at the first quote without a
backslash before it, and what follows a word tells a call from a leaf.

Statements written side by side have nothing between them, and the text of a void is empty, so
neither is among these trees.
-/

namespace TreeScript

set_option autoImplicit false

namespace Text

def unescapeChar (mark : Char) : Char :=
  if mark = 't' then '\t' else if mark = 'n' then '\n' else mark

/-- A text up to the quote that ends it, and what follows the quote. -/
def readQuoted : List Char → Option (List Char × List Char)
  | [] => none
  | '\'' :: rest => some ([], rest)
  | '\\' :: mark :: rest =>
      (readQuoted rest).map fun (text, behind) => (unescapeChar mark :: text, behind)
  | c :: rest => (readQuoted rest).map fun (text, behind) => (c :: text, behind)

/-- An escaped character is the character itself, which then ends nothing and escapes nothing, or
a mark behind a backslash. -/
theorem escape_char_cases (c : Char) :
    (escapeChar c = [c] ∧ c ≠ '\\' ∧ c ≠ '\'') ∨
      ∃ mark, escapeChar c = ['\\', mark] ∧ unescapeChar mark = c := by
  by_cases backslash : c = '\\'
  · subst backslash
    exact Or.inr ⟨'\\', rfl, rfl⟩
  by_cases tab : c = '\t'
  · subst tab
    exact Or.inr ⟨'t', rfl, rfl⟩
  by_cases line : c = '\n'
  · subst line
    exact Or.inr ⟨'n', rfl, rfl⟩
  by_cases quote : c = '\''
  · subst quote
    exact Or.inr ⟨'\'', rfl, rfl⟩
  · apply Or.inl
    refine ⟨?_, backslash, quote⟩
    simp [escapeChar, backslash, tab, line, quote]

theorem read_quoted_escape (text rest : List Char) :
    readQuoted (escape text ++ '\'' :: rest) = some (text, rest) := by
  induction text with
  | nil => simp [readQuoted]
  | cons c text induction =>
      rw [escape_cons, List.append_assoc]
      obtain ⟨plain, backslash, quote⟩ | ⟨mark, marked, meant⟩ := escape_char_cases c
      · rw [plain, List.singleton_append, readQuoted, induction]
        · rfl
        · exact quote
        · intro mark behind escaped
          exact absurd escaped backslash
      · rw [marked]
        simp only [List.cons_append, List.nil_append, readQuoted]
        rw [induction, Option.map_some, meant]

theorem quoted_delimits {text text' rest rest' : List Char}
    (same : escape text ++ '\'' :: rest = escape text' ++ '\'' :: rest') :
    text = text' ∧ rest = rest' := by
  have read := read_quoted_escape text rest
  rw [same, read_quoted_escape, Option.some.injEq, Prod.mk.injEq] at read
  exact ⟨read.1.symm, read.2.symm⟩

end Text

section Words

/-- The characters of a name, of a number and of a word such as `true`. -/
def isWordCharacter (c : Char) : Bool := c.isAlphanum || ['_', '@', '-'].contains c

theorem word_ends {word word' rest rest' : List Char}
    (spelled : ∀ c ∈ word, isWordCharacter c = true)
    (spelled' : ∀ c ∈ word', isWordCharacter c = true)
    (ends : ∀ c ∈ rest.head?, isWordCharacter c = false)
    (ends' : ∀ c ∈ rest'.head?, isWordCharacter c = false) (same : word ++ rest = word' ++ rest') :
    word = word' ∧ rest = rest' := by
  have stops : ∀ behind : List Char, (∀ c ∈ behind.head?, isWordCharacter c = false) →
      behind.takeWhile isWordCharacter = [] := by
    intro behind nothing
    cases behind with
    | nil => rfl
    | cons c behind =>
        have other : isWordCharacter c = false := nothing c rfl
        rw [List.takeWhile_cons, other]
        rfl
  have words := congrArg (List.takeWhile isWordCharacter) same
  rw [List.takeWhile_append_of_pos spelled, List.takeWhile_append_of_pos spelled',
    stops rest ends, stops rest' ends', List.append_nil, List.append_nil] at words
  subst words
  exact ⟨rfl, List.append_cancel_left same⟩

/-- The parenthesis of a call ends its name. -/
theorem parenthesis_ends (rest : List Char) :
    ∀ c ∈ ('(' :: rest).head?, isWordCharacter c = false := by
  intro c first
  obtain rfl : '(' = c := by simpa using first
  rfl

theorem word_not_quoted {word behind text : List Char} (some_left : word ≠ [])
    (spelled : ∀ c ∈ word, isWordCharacter c = true) : word ++ behind ≠ '\'' :: text := by
  intro same
  cases word with
  | nil => exact some_left rfl
  | cons c word =>
      have quote : c = '\'' := (List.cons.inj same).1
      have letter := spelled c List.mem_cons_self
      rw [quote] at letter
      revert letter
      decide

/-- A name of ASCII letters, digits and underscores that does not begin with a digit. -/
structure IsIdentifier (name : String) : Prop where
  some_left : name.toList ≠ []
  characters : ∀ c ∈ name.toList, c.isAlphanum = true ∨ c = '_'
  start : ∀ c ∈ name.toList.head?, c.isDigit = false

theorem is_identifier_iff (name : String) : IsIdentifier name ↔
    name.toList ≠ [] ∧ name.toList.all (fun c => c.isAlphanum || c == '_') = true ∧
      name.toList.head?.all (fun c => !c.isDigit) = true := by
  simp only [List.all_eq_true, Bool.or_eq_true, beq_iff_eq, Option.all_eq_true, Bool.not_eq_true']
  constructor
  · intro identifier
    exact ⟨identifier.some_left, identifier.characters, identifier.start⟩
  · intro parts
    exact ⟨parts.1, parts.2.1, parts.2.2⟩

instance (name : String) : Decidable (IsIdentifier name) :=
  decidable_of_iff _ (is_identifier_iff name).symm

theorem IsIdentifier.spelled {name : String} (identifier : IsIdentifier name) :
    ∀ c ∈ name.toList, isWordCharacter c = true := by
  intro c member
  obtain letter | rfl := identifier.characters c member
  · simp [isWordCharacter, letter]
  · rfl

theorem Integer.text_characters (word : Int64) :
    ∀ c ∈ (Integer.text word).toList, c.isDigit = true ∨ c = '-' := by
  intro c member
  rw [Integer.text, Integer.repr_eq, List.mem_append] at member
  obtain sign | digit := member
  · split at sign
    · exact Or.inr (List.mem_singleton.mp sign)
    · cases sign
  · exact Or.inl (Integer.digits_of_number _ c digit)

/-- The payloads that are written as one word: variables, and the literals without quotes. -/
inductive Payload.IsWord : Payload → Prop where
  | «variable» {name : String} : IsIdentifier name → IsWord (.variable ("@" ++ name))
  | int (number : Int64) : IsWord (.literal (.int number))
  | bool (flag : Bool) : IsWord (.literal (.bool flag))
  | null : IsWord (.literal .null)

def readWord (word : List Char) : Option Payload :=
  if word.head? = some '@' then some (.variable (String.ofList word))
  else if word = "true".toList then some (.literal (.bool true))
  else if word = "false".toList then some (.literal (.bool false))
  else if word = "null".toList then some (.literal .null)
  else (Integer.read? word).map fun number => .literal (.int number)

namespace Payload.IsWord

variable {payload payload' : Payload}

theorem spelled (word : payload.IsWord) : ∀ c ∈ payload.text.toList, isWordCharacter c = true := by
  cases word with
  | «variable» identifier =>
      simp only [Payload.text, String.toList_append, List.mem_append]
      intro c member
      obtain sign | behind := member
      · obtain rfl := List.mem_singleton.mp sign
        rfl
      · exact identifier.spelled c behind
  | int number =>
      simp only [Payload.text, Value.text]
      intro c member
      obtain digit | rfl := Integer.text_characters number c member
      · simp [isWordCharacter, Char.isAlphanum, digit]
      · rfl
  | bool flag =>
      simp only [Payload.text, Value.text]
      apply List.all_eq_true.mp
      cases flag <;> decide
  | null =>
      simp only [Payload.text, Value.text]
      apply List.all_eq_true.mp
      decide

theorem read_word (word : payload.IsWord) : readWord payload.text.toList = some payload := by
  cases word with
  | @«variable» name identifier => simp [readWord, Payload.text]
  | int number =>
      have differs : ∀ other : String, ∀ c ∈ other.toList, c.isDigit = false → c ≠ '-' →
          (Integer.text number).toList ≠ other.toList := by
        intro other c member letter sign same
        rw [← same] at member
        obtain digit | minus := Integer.text_characters number c member
        · rw [digit] at letter
          cases letter
        · exact sign minus
      have first : (Integer.text number).toList.head? ≠ some '@' := by
        intro begins
        have sign := Integer.text_characters number '@' (List.mem_of_mem_head? begins)
        revert sign
        decide
      have written : Payload.text (.literal (.int number)) = Integer.text number := by
        simp only [Payload.text, Value.text]
      rw [written, readWord, if_neg first,
        if_neg (differs "true" 't' (by decide) (by decide) (by decide)),
        if_neg (differs "false" 'f' (by decide) (by decide) (by decide)),
        if_neg (differs "null" 'n' (by decide) (by decide) (by decide)), Integer.read_text]
      rfl
  | bool flag => cases flag <;> simp only [Payload.text, Value.text] <;> rfl
  | null => simp only [Payload.text, Value.text]; rfl

theorem injective (word : payload.IsWord) (word' : payload'.IsWord)
    (same : payload.text = payload'.text) : payload = payload' := by
  have read := word.read_word
  rw [same, word'.read_word] at read
  exact (Option.some.inj read).symm

theorem some_left (word : payload.IsWord) : payload.text.toList ≠ [] := by
  intro empty
  have read := word.read_word
  rw [empty] at read
  cases read

end Payload.IsWord

end Words

namespace Tree

mutual

/-- The same tree without positions and without the notes of an optimizer. -/
def script : Tree → Tree
  | ⟨payload, _, _, _, children⟩ => node payload (scripts children) .unknown

def scripts : List Tree → List Tree
  | [] => []
  | child :: rest => script child :: scripts rest

end

theorem scripts_eq_map (children : List Tree) : scripts children = children.map script := by
  induction children with
  | nil => rfl
  | cons child rest induction => rw [scripts, induction, List.map_cons]

/-- Trees of calls with identifiers for names, of variables, and of literals that are strings,
integers, booleans or null. Statements written side by side are not among them. -/
inductive Legible : Tree → Prop where
  | call {name : String} {children : List Tree} (position : Position) (optimized : Bool)
      (facts : Facts) : IsIdentifier name → name ≠ SpecialForm.autoConcat.name →
      (∀ child ∈ children, Legible child) →
      Legible ⟨.call name, position, optimized, facts, children⟩
  | word {payload : Payload} (position : Position) (optimized : Bool) (facts : Facts) :
      payload.IsWord → Legible ⟨payload, position, optimized, facts, []⟩
  | quoted (text : String) (position : Position) (optimized : Bool) (facts : Facts) :
      Legible ⟨.literal (.string text), position, optimized, facts, []⟩

/-- What can stand behind a tree: nothing, a separator, or the end of the arguments around it. -/
def Closes (rest : List Char) : Prop := ∀ c ∈ rest.head?, c = ',' ∨ c = ')'

theorem Closes.ends {rest : List Char} (closes : Closes rest) :
    ∀ c ∈ rest.head?, isWordCharacter c = false := by
  intro c first
  obtain rfl | rfl := closes c first <;> decide

/-- The text of a tree shows where it ends and which tree it is. -/
def Delimited (tree : Tree) : Prop :=
  ∀ (other : Tree) (rest rest' : List Char), other.Legible → Closes rest → Closes rest' →
    tree.text.toList ++ rest = other.text.toList ++ rest' →
      tree.script = other.script ∧ rest = rest'

section Texts

variable (position : Position) (optimized : Bool) (facts : Facts)

theorem text_of_word {payload : Payload} (word : payload.IsWord) :
    Tree.text ⟨payload, position, optimized, facts, []⟩ = payload.text := by
  cases word <;> simp only [Tree.text, Payload.text]

theorem text_of_quoted (text : String) :
    (Tree.text ⟨.literal (.string text), position, optimized, facts, []⟩).toList =
      '\'' :: (Text.escape text.toList ++ ['\'']) := by
  simp [Tree.text, Text.quote, Text.escapeString, toString]

/-- The texts of arguments behind the first, each with the separator before it. -/
def furtherText (rest : List Tree) : List Char :=
  rest.flatMap fun next => ',' :: next.text.toList

theorem texts_cons (child : Tree) (rest : List Tree) :
    (Tree.texts "," (child :: rest)).toList = child.text.toList ++ furtherText rest := by
  induction rest generalizing child with
  | nil => simp [Tree.texts, furtherText]
  | cons next rest induction =>
      rw [Tree.texts, String.toList_append, String.toList_append, induction next,
        List.append_assoc]
      · rfl
      · intro contra
        cases contra

theorem text_of_call {name : String} (separated : name ≠ SpecialForm.autoConcat.name)
    (children : List Tree) :
    (Tree.text ⟨.call name, position, optimized, facts, children⟩).toList =
      name.toList ++ '(' :: ((Tree.texts "," children).toList ++ [')']) := by
  have comma : separator name = "," := by
    unfold separator
    rw [if_neg]
    intro special
    exact separated ((SpecialForm.ofName?_eq_some_iff _ _).mp special).symm
  rw [Tree.text_call, comma]
  simp

end Texts

theorem Legible.begins {tree : Tree} (legible : tree.Legible) :
    ∃ c rest, tree.text.toList = c :: rest ∧ (isWordCharacter c = true ∨ c = '\'') := by
  have spelled : ∀ word behind : List Char, word ≠ [] → (∀ c ∈ word, isWordCharacter c = true) →
      ∃ c rest, word ++ behind = c :: rest ∧ (isWordCharacter c = true ∨ c = '\'') := by
    intro word behind some_left spelled
    cases word with
    | nil => exact absurd rfl some_left
    | cons c word => exact ⟨c, word ++ behind, rfl, Or.inl (spelled c List.mem_cons_self)⟩
  cases legible with
  | call position optimized facts identifier separated below =>
      rw [text_of_call position optimized facts separated]
      exact spelled _ _ identifier.some_left identifier.spelled
  | word position optimized facts word =>
      rw [text_of_word position optimized facts word]
      simpa using spelled _ [] word.some_left word.spelled
  | quoted text position optimized facts =>
      exact ⟨'\'', _, text_of_quoted position optimized facts text, Or.inr rfl⟩

section Arguments

variable {children others : List Tree} {rest rest' : List Char}

theorem further_closes (children : List Tree) (rest : List Char) :
    Closes (furtherText children ++ ')' :: rest) := by
  intro c first
  cases children with
  | nil =>
      obtain rfl : ')' = c := by simpa [furtherText] using first
      exact Or.inr rfl
  | cons child children =>
      obtain rfl : ',' = c := by simpa [furtherText] using first
      exact Or.inl rfl

theorem further_delimited (each : ∀ child ∈ children, child.Delimited)
    (legible : ∀ other ∈ others, other.Legible)
    (same : furtherText children ++ ')' :: rest = furtherText others ++ ')' :: rest') :
    children.map script = others.map script ∧ rest = rest' := by
  induction children generalizing others with
  | nil =>
      cases others with
      | nil =>
          simp only [furtherText, List.flatMap_nil, List.nil_append, List.cons.injEq] at same
          exact ⟨rfl, same.2⟩
      | cons other others => simp [furtherText] at same
  | cons child children induction =>
      cases others with
      | nil => simp [furtherText] at same
      | cons other others =>
          rw [List.forall_mem_cons] at each legible
          have behind : child.text.toList ++ (furtherText children ++ ')' :: rest) =
              other.text.toList ++ (furtherText others ++ ')' :: rest') := by
            simpa [furtherText] using same
          have first := each.1 other _ _ legible.1 (further_closes children rest)
            (further_closes others rest') behind
          have further := induction each.2 legible.2 first.2
          rw [List.map_cons, List.map_cons, first.1, further.1]
          exact ⟨rfl, further.2⟩

theorem arguments_delimited (each : ∀ child ∈ children, child.Delimited)
    (legibleChildren : ∀ child ∈ children, child.Legible)
    (legible : ∀ other ∈ others, other.Legible)
    (same : (Tree.texts "," children).toList ++ ')' :: rest =
      (Tree.texts "," others).toList ++ ')' :: rest') :
    children.map script = others.map script ∧ rest = rest' := by
  -- A first argument begins with no parenthesis, so the empty list is told from all others.
  have empty : ∀ (child : Tree) (behind text : List Char), child.Legible →
      child.text.toList ++ behind ≠ ')' :: text := by
    intro child behind text legible contra
    obtain ⟨c, rest, begins, starts⟩ := legible.begins
    rw [begins, List.cons_append, List.cons.injEq] at contra
    obtain ⟨rfl, -⟩ := contra
    revert starts
    decide
  cases children with
  | nil =>
      cases others with
      | nil =>
          simp only [Tree.texts, String.toList_empty, List.nil_append, List.cons.injEq] at same
          exact ⟨rfl, same.2⟩
      | cons other others =>
          rw [texts_cons, List.append_assoc] at same
          exact absurd same.symm (empty other _ _ (legible other List.mem_cons_self))
  | cons child children =>
      cases others with
      | nil =>
          rw [texts_cons, List.append_assoc] at same
          exact absurd same (empty child _ _ (legibleChildren child List.mem_cons_self))
      | cons other others =>
          apply further_delimited each legible
          simpa [texts_cons, furtherText] using same

end Arguments

/-- By induction on the tree. The word at its front ends where that of the other tree does, and a
parenthesis behind it can only be that of a call. -/
theorem Legible.delimited {tree : Tree} (legible : tree.Legible) : tree.Delimited := by
  induction legible with
  | @call name children position optimized facts identifier separated below each =>
      intro other rest rest' legible closes closing same
      rw [text_of_call position optimized facts separated, List.append_assoc] at same
      cases legible with
      | @call name' others position' optimized' facts' identifier' separated' below' =>
          rw [text_of_call position' optimized' facts' separated', List.append_assoc] at same
          obtain ⟨named, behind⟩ := word_ends identifier.spelled identifier'.spelled
            (parenthesis_ends _) (parenthesis_ends _) same
          have arguments := arguments_delimited each below below' (by simpa using behind)
          rw [String.toList_inj] at named
          refine ⟨?_, arguments.2⟩
          rw [script, script, scripts_eq_map, scripts_eq_map, named, arguments.1]
      | word position' optimized' facts' word =>
          rw [text_of_word position' optimized' facts' word] at same
          obtain ⟨-, behind⟩ := word_ends identifier.spelled word.spelled (parenthesis_ends _)
            closing.ends same
          exact absurd (closing '(' (by rw [← behind]; rfl)) (by decide)
      | quoted text position' optimized' facts' =>
          rw [text_of_quoted] at same
          exact absurd same (word_not_quoted identifier.some_left identifier.spelled)
  | @word payload position optimized facts word =>
      intro other rest rest' legible closes closing same
      rw [text_of_word position optimized facts word] at same
      cases legible with
      | @call name' others position' optimized' facts' identifier' separated' below' =>
          rw [text_of_call position' optimized' facts' separated', List.append_assoc] at same
          obtain ⟨-, behind⟩ := word_ends word.spelled identifier'.spelled closes.ends
            (parenthesis_ends _) same
          exact absurd (closes '(' (by rw [behind]; rfl)) (by decide)
      | word position' optimized' facts' word' =>
          rw [text_of_word position' optimized' facts' word'] at same
          obtain ⟨written, behind⟩ := word_ends word.spelled word'.spelled closes.ends
            closing.ends same
          rw [String.toList_inj] at written
          obtain rfl := word.injective word' written
          exact ⟨rfl, behind⟩
      | quoted text position' optimized' facts' =>
          rw [text_of_quoted] at same
          exact absurd same (word_not_quoted word.some_left word.spelled)
  | quoted text position optimized facts =>
      intro other rest rest' legible closes closing same
      rw [text_of_quoted] at same
      cases legible with
      | @call name' others position' optimized' facts' identifier' separated' below' =>
          rw [text_of_call position' optimized' facts' separated', List.append_assoc] at same
          exact absurd same.symm (word_not_quoted identifier'.some_left identifier'.spelled)
      | word position' optimized' facts' word' =>
          rw [text_of_word position' optimized' facts' word'] at same
          exact absurd same.symm (word_not_quoted word'.some_left word'.spelled)
      | quoted text' position' optimized' facts' =>
          rw [text_of_quoted] at same
          have delimits := Text.quoted_delimits (by simpa using same)
          rw [String.toList_inj] at delimits
          rw [delimits.1]
          exact ⟨rfl, delimits.2⟩

end Tree

/-- Trees of calls, variables and plain literals with one text are the same script. A string is
known from what is between its quotes, and its quotes from whatever stands behind them. -/
theorem text_identifies_tree :
    (∀ first second : Tree, first.Legible → second.Legible → first.text = second.text →
      first.script = second.script) ∧
    Function.Injective Text.escapeString ∧
    ∀ text text' behind behind' : String,
      "'" ++ Text.escapeString text ++ "'" ++ behind =
        "'" ++ Text.escapeString text' ++ "'" ++ behind' →
      text = text' ∧ behind = behind' := by
  have delimits : ∀ text text' behind behind' : String,
      "'" ++ Text.escapeString text ++ "'" ++ behind =
        "'" ++ Text.escapeString text' ++ "'" ++ behind' →
      text = text' ∧ behind = behind' := by
    intro text text' behind behind' same
    have characters := congrArg String.toList same
    have parts := Text.quoted_delimits (by simpa [Text.escapeString] using characters)
    rwa [String.toList_inj, String.toList_inj] at parts
  refine ⟨?_, ?_, delimits⟩
  · intro first second legible legible' same
    have nothing : Tree.Closes [] := fun c member => nomatch member
    exact (legible.delimited second [] [] legible' nothing nothing (by rw [same])).1
  · intro text text' same
    exact (delimits text text' "" "" (by rw [same])).1

def salute (position : Position) : Tree :=
  .call "msg" [.literal (.string "it's") position, .node (.variable "@who") [] position] position

theorem salute_legible (position : Position) : (salute position).Legible := by
  apply Tree.Legible.call position false {}
  · decide
  · decide
  · intro child member
    obtain rfl | rfl : child = Tree.literal (.string "it's") position ∨
        child = Tree.node (.variable "@who") [] position := by simpa using member
    · exact .quoted "it's" position false {}
    · have identifier : IsIdentifier "who" := by decide
      exact .word position false {} (.variable identifier)

theorem text_identifies_salute :
    ((salute .unknown).Legible ∧ (salute ⟨3, 1, none⟩).Legible ∧
      (salute .unknown).text = (salute ⟨3, 1, none⟩).text ∧
      (salute .unknown).script = (salute ⟨3, 1, none⟩).script) ∧
    "'" ++ Text.escapeString "it's" ++ "'" ++ ",@who" = "'it\\'s',@who" ∧
    ("it's" = "it's" ∧ ",@who" = ",@who") := by
  have same : (salute .unknown).text = (salute ⟨3, 1, none⟩).text := by
    simp only [salute, Tree.call, Tree.node, Tree.literal, Tree.text, Tree.texts]
  have script := text_identifies_tree.1 _ _ (salute_legible .unknown)
    (salute_legible ⟨3, 1, none⟩) same
  exact ⟨⟨salute_legible _, salute_legible _, same, script⟩, by decide,
    text_identifies_tree.2.2 _ _ _ _ rfl⟩

end TreeScript
