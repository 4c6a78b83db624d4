import Smts.Server.Punctuation

namespace Smts.Server

open Smts.Lib
open Smts.Lib.Json (Mark Spells)

/-- The commas and brackets of `smt2json`. -/
def punctuate (s : List Char) : List Char :=
  let s := Patterns.word.sub (fun w => '"' :: w ++ ['"', ',', ' ']) s
  let s := (Patterns.apart ',' ')').sub (fun _ => [')']) s
  let s := (Patterns.apart ')' '(').sub (fun _ => [')', ',', ' ', '(']) s
  let s := Patterns.last.sub (fun _ => [')', ',', ' ']) s
  let s := Patterns.trailing.sub (fun _ => []) s
  let s := (Patterns.one '(').sub (fun _ => ['[']) s
  (Patterns.one ')').sub (fun _ => [']']) s

namespace Items

variable {strings : Strings} {items : List Item}

theorem sub_one (a b : Char) (s : List Char) :
    (Patterns.one a).sub (fun _ => [b]) s = s.map fun c => if c = a then b else c := by
  induction s with
  | nil => rfl
  | cons c s ih =>
    by_cases h : c = a
    · have hmatch : Patterns.one a (c :: [] ++ s) = some (([] : List Char).length + 1) := if_pos h
      have hsub := Pattern.sub_match (r := fun _ => [b]) hmatch
      rw [List.cons_append, List.nil_append] at hsub
      rw [hsub, ih, List.map_cons, if_pos h]
      rfl
    · rw [Pattern.sub_cons (if_neg h), ih, List.map_cons, if_neg h]

def bracket (c : Char) : Char :=
  let d := if c = '(' then '[' else c
  if d = ')' then ']' else d

theorem bracket_of_ne {c : Char} (h : c ≠ '(' ∧ c ≠ ')') : bracket c = c := by
  simp [bracket, h.1, h.2]

theorem map_bracket {s : List Char} (h : ∀ c ∈ s, c ≠ '(' ∧ c ≠ ')') : s.map bracket = s := by
  induction s with
  | nil => rfl
  | cons c s ih =>
    rw [List.forall_mem_cons] at h
    rw [List.map_cons, bracket_of_ne h.1, ih h.2]

theorem wordChar_ne {c : Char} (h : Patterns.wordChar c) : c ≠ '(' ∧ c ≠ ')' := by
  simp only [Patterns.wordChar, decide_eq_true_eq] at h
  exact h.2.2

theorem space_ne_bracket {c : Char} (h : isSpace c) : c ≠ '(' ∧ c ≠ ')' :=
  ⟨space_ne h (by decide), space_ne h (by decide)⟩

theorem map_lexeme {l : Lexeme} (h : l.Good strings) : l.quoted.map bracket = l.bracketed := by
  cases l with
  | opening | closing => rfl
  | word e s w =>
    have he := map_bracket fun c hc => wordChar_ne (h.2.wordChars c hc)
    simp only [Lexeme.quoted, Lexeme.bracketed, List.map_cons, List.map_append, he, List.cons_append]
    rfl

theorem sub_brackets (h : ∀ i ∈ items, i.Good strings) :
    (text Lexeme.quoted items).map bracket = text Lexeme.bracketed items := by
  induction items with
  | nil => rfl
  | cons i items ih =>
    rw [List.forall_mem_cons] at h
    have hcomma : (if i.comma then [','] else []).map bracket = if i.comma then [','] else [] := by
      cases i.comma <;> rfl
    rw [text_cons, text_cons, List.map_append, ih h.2, Item.text, Item.text, List.map_append,
      List.map_append, map_lexeme h.1.1, hcomma,
      map_bracket fun c hc => space_ne_bracket (h.1.2 c hc)]

theorem lookup_plain {u : List Char} (h : ∀ c ∈ u, c ≠ '{') (t : List Char) :
    lookupStrings strings (Patterns.key.scan (u ++ t)) =
      (lookupStrings strings (Patterns.key.scan t)).map (u ++ ·) := by
  induction u with
  | nil => simp
  | cons c u ih =>
    rw [List.forall_mem_cons] at h
    rw [List.cons_append, Pattern.scan_cons (Coded.key_starts _ _ h.1), lookupStrings, ih h.2,
      Option.map_map]
    rfl

theorem lookup_lexeme {l : Lexeme} (h : l.Good strings) (t : List Char) :
    lookupStrings strings (Patterns.key.scan (l.bracketed ++ t)) =
      (lookupStrings strings (Patterns.key.scan t)).map (l.json ++ ·) := by
  cases l with
  | opening | closing => exact lookup_plain (by simp [Lexeme.bracketed]) t
  | word e s w =>
    have hshape : Lexeme.bracketed (.word e s w) ++ t = ['"'] ++ (e ++ (['"'] ++ t)) := by
      simp [Lexeme.bracketed]
    rw [hshape, lookup_plain (by simp), h.2.lookup, lookup_plain (by simp), Option.map_map,
      Option.map_map]
    congr 1
    funext u
    simp [Lexeme.json]

theorem lookup_text (h : ∀ i ∈ items, i.Good strings) :
    lookupStrings strings (Patterns.key.scan (text Lexeme.bracketed items)) =
      some (text Lexeme.json items) := by
  induction items with
  | nil => rfl
  | cons i items ih =>
    rw [List.forall_mem_cons] at h
    have hcomma : ∀ c ∈ (if i.comma then [','] else []) ++ i.after, c ≠ '{' := by
      intro c hc
      rw [List.mem_append] at hc
      rcases hc with hc | hc
      · cases hi : i.comma with
        | false =>
          rw [hi] at hc
          cases hc
        | true =>
          rw [hi, if_pos rfl, List.mem_singleton] at hc
          rw [hc]
          decide
      · exact space_ne (h.1.2 c hc) (by decide)
    rw [text_cons, text_cons, Item.text, List.append_assoc, List.append_assoc,
      lookup_lexeme h.1.1, ← List.append_assoc, lookup_plain hcomma, ih h.2]
    simp [Item.text]

def blanks : List Char := [' ', '\t', '\n', '\r']

def marks (items : List Item) : List Mark :=
  items.flatMap fun i => i.lexeme.mark :: if i.comma then [.comma] else []

theorem lex_lexeme {l : Lexeme} (h : l.Good strings) (t : List Char) :
    Json.lex (l.json ++ t) = (Json.lex t).map (l.mark :: ·) := by
  cases l with
  | opening => exact Json.lex_opening t
  | closing => exact Json.lex_closing t
  | word e s w =>
    have hshape : Lexeme.json (.word e s w) ++ t = '"' :: s ++ '"' :: t := by simp [Lexeme.json]
    rw [hshape, Json.lex_str h.2.spells]
    rfl

theorem lex_text (h : ∀ i ∈ items, i.Good strings) (hblank : ∀ i ∈ items, ∀ c ∈ i.after, c ∈ blanks) :
    Json.lex (text Lexeme.json items) = some (marks items) := by
  induction items with
  | nil => rfl
  | cons i items ih =>
    rw [List.forall_mem_cons] at h hblank
    rw [text_cons, Item.text, List.append_assoc, List.append_assoc, lex_lexeme h.1.1]
    cases hi : i.comma with
    | false =>
      rw [if_neg (by decide), List.nil_append, Json.lex_blanks hblank.1, ih h.2 hblank.2]
      simp [marks, hi]
    | true =>
      rw [if_pos rfl, List.singleton_append, Json.lex_comma, Json.lex_blanks hblank.1,
        ih h.2 hblank.2]
      simp [marks, hi]

/-- What the patterns make of an item. -/
def punctuated (i : Item) (n : Option Lexeme) : Item :=
  dropTrailing (closeLast (joinLists (dropComma (quote i n) n) n) n) n

/-- The lexeme stays; white space goes, or a space comes. -/
def Reshapes (f : Item → Option Lexeme → Item) : Prop :=
  ∀ i n, (f i n).lexeme = i.lexeme ∧ ∀ c ∈ (f i n).after, c = ' ' ∨ c ∈ i.after

theorem Reshapes.good {f : Item → Option Lexeme → Item} (hf : Reshapes f) {i : Item}
    (n : Option Lexeme) (h : i.Good strings) : (f i n).Good strings := by
  refine ⟨(hf i n).1 ▸ h.1, fun c hc => ?_⟩
  rcases (hf i n).2 c hc with rfl | hc
  · rfl
  · exact h.2 c hc

theorem Reshapes.comp {f g : Item → Option Lexeme → Item} (hf : Reshapes f) (hg : Reshapes g) :
    Reshapes fun i n => g (f i n) n := by
  intro i n
  refine ⟨(hg _ n).1.trans (hf i n).1, fun c hc => ?_⟩
  rcases (hg _ n).2 c hc with rfl | hc
  · exact .inl rfl
  · exact (hf i n).2 c hc

theorem unreshaped (i : Item) : i.lexeme = i.lexeme ∧ ∀ c ∈ i.after, c = ' ' ∨ c ∈ i.after :=
  ⟨rfl, fun _ => .inr⟩

theorem reshapes_quote : Reshapes quote := by
  rintro ⟨l, comma, after⟩ n
  cases l with
  | opening | closing => exact unreshaped _
  | word e s w => simp [quote]

theorem reshapes_dropComma : Reshapes dropComma := by
  intro i n
  rw [dropComma.eq_def]
  split
  · split
    · simp
    · exact unreshaped i
  · exact unreshaped i

theorem reshapes_joinLists : Reshapes joinLists := by
  intro i n
  rw [joinLists.eq_def]
  split
  · split
    · split
      · exact unreshaped i
      · simp
    · exact unreshaped i
  · exact unreshaped i

theorem reshapes_closeLast : Reshapes closeLast := by
  intro i n
  rw [closeLast.eq_def]
  split
  · exact unreshaped i
  · split
    · split
      · exact unreshaped i
      · simp
    · exact unreshaped i

theorem reshapes_dropTrailing : Reshapes dropTrailing := by
  intro i n
  rw [dropTrailing.eq_def]
  split
  · split
    · simp
    · exact unreshaped i
  · exact unreshaped i

theorem reshapes_punctuated : Reshapes punctuated :=
  (((reshapes_quote.comp reshapes_dropComma).comp reshapes_joinLists).comp
    reshapes_closeLast).comp reshapes_dropTrailing

theorem punctuate_text (h : ∀ i ∈ items, i.Good strings) (hcomma : ∀ i ∈ items, i.comma = false)
    (hchain : List.IsChain Apart items) :
    punctuate (text Lexeme.raw items) = text Lexeme.bracketed (adjust punctuated items) := by
  have hquote := good_adjust (fun i n => reshapes_quote.good n) h
  have hdrop := good_adjust (fun i n => reshapes_dropComma.good n) hquote
  have hjoin := good_adjust (fun i n => reshapes_joinLists.good n) hdrop
  have hclose := good_adjust (fun i n => reshapes_closeLast.good n) hjoin
  have hall := good_adjust (fun i n => reshapes_dropTrailing.good n) hclose
  have hadjust : adjust dropTrailing (adjust closeLast (adjust joinLists (adjust dropComma
      (adjust quote items)))) = adjust punctuated items := by
    rw [adjust_adjust fun i n => (reshapes_quote i n).1,
      adjust_adjust fun i n => ((reshapes_quote.comp reshapes_dropComma) i n).1,
      adjust_adjust fun i n =>
        (((reshapes_quote.comp reshapes_dropComma).comp reshapes_joinLists) i n).1,
      adjust_adjust fun i n => ((((reshapes_quote.comp reshapes_dropComma).comp
        reshapes_joinLists).comp reshapes_closeLast) i n).1]
    rfl
  rw [punctuate, sub_word h hcomma hchain, sub_dropComma hquote, sub_joinLists hdrop,
    sub_closeLast hjoin, sub_dropTrailing hclose, sub_one, sub_one, List.map_map, ← sub_brackets
    (hadjust ▸ hall), hadjust]
  rfl

/-- Commas stand where lists and atoms meet. -/
theorem punctuated_comma {i : Item} (h : i.comma = false) (n : Option Lexeme) :
    (if (punctuated i n).comma then [Mark.comma] else []) =
      Json.separator (some i.lexeme.mark) (n.map Lexeme.mark) := by
  obtain ⟨l, comma, after⟩ := i
  obtain rfl : comma = false := h
  cases l <;> rcases n with _ | k <;> try rfl
  all_goals cases k <;> rfl

theorem marks_punctuated (hcomma : ∀ i ∈ items, i.comma = false) :
    marks (adjust punctuated items) = Json.withCommas (items.map fun i => i.lexeme.mark) := by
  induction items with
  | nil => rfl
  | cons i items ih =>
    rw [List.forall_mem_cons] at hcomma
    have hnext : (items.map fun i => i.lexeme.mark).head? = (next items).map Lexeme.mark := by
      cases items <;> rfl
    rw [adjust, marks, List.flatMap_cons, ← marks, ih hcomma.2, punctuated_comma hcomma.1,
      (reshapes_punctuated i _).1, List.map_cons, Json.withCommas, hnext]

theorem blanks_punctuated (h : ∀ i ∈ items, ∀ c ∈ i.after, c ∈ blanks) :
    ∀ i ∈ adjust punctuated items, ∀ c ∈ i.after, c ∈ blanks := by
  induction items with
  | nil => simp [adjust]
  | cons i items ih =>
    rw [List.forall_mem_cons] at h
    refine List.forall_mem_cons.mpr ⟨fun c hc => ?_, ih h.2⟩
    rcases (reshapes_punctuated i _).2 c hc with rfl | hc
    · decide
    · exact h.1 c hc

/-- The text of a list of lexemes reads as the value with these marks. -/
theorem loads_text (h : ∀ i ∈ items, i.Good strings) (hcomma : ∀ i ∈ items, i.comma = false)
    (hchain : List.IsChain Apart items) (hblank : ∀ i ∈ items, ∀ c ∈ i.after, c ∈ blanks) (v : Json) :
    (lookupStrings strings (Patterns.key.scan (punctuate (text Lexeme.raw items)))).bind Json.loads =
        some v ↔ (items.map fun i => i.lexeme.mark) = v.tokens := by
  have hgood := good_adjust (fun i n => reshapes_punctuated.good n) h
  have hnone : Mark.comma ∉ items.map fun i => i.lexeme.mark := by
    intro hmem
    obtain ⟨i, -, hi⟩ := List.mem_map.mp hmem
    cases hl : i.lexeme <;> rw [hl] at hi <;> cases hi
  rw [punctuate_text h hcomma hchain, lookup_text hgood, Option.bind_some, Json.loads_iff,
    lex_text hgood (blanks_punctuated hblank), marks_punctuated hcomma, Option.some_inj,
    Json.withCommas_eq_marks hnone]

end Items

end Smts.Server
