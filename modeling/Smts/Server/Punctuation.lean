import Mathlib.Data.Char
import Smts.Server.Utils

namespace Smts.Server

open Smts.Lib
open Smts.Lib.Json (Mark Spells)

/-- A character that no pattern takes for anything but a part of an atom. -/
def plain (c : Char) : Bool :=
  !isSpace c ∧ c ∉ ['(', ')', '"', '|', ';', '{', '}', '\\'] ∧ 0x20 ≤ c.toNat

/-- An atom as it stands in the text while its quoted parts are kept in `strings`, as it is
written for `json.loads`, and the string that this gives. -/
inductive Coded (strings : Strings) : List Char → List Char → List Char → Prop
  | nil : Coded strings [] [] []
  | bare {c : Char} {e s w : List Char} (hc : plain c) (h : Coded strings e s w) :
    Coded strings (c :: e) (c :: s) (c :: w)
  | key {n : Nat} {u e s w : List Char}
    (hn : strings.lookup (stringKey n) = some (u.flatMap Json.escape)) (h : Coded strings e s w) :
    Coded strings (stringKey n ++ e) (u.flatMap Json.escape ++ s) (u ++ w)

variable {strings : Strings} {c : Char} {e s w : List Char}

theorem plain_wordChar (h : plain c) : Patterns.wordChar c := by
  simp only [plain, decide_eq_true_eq, List.mem_cons, not_or] at h
  simp only [Patterns.wordChar, decide_eq_true_eq]
  exact ⟨h.2.1.2.2.1, by simpa using h.1, h.2.1.1, h.2.1.2.1⟩

theorem plain_ne {d : Char} (h : plain c) (hd : d ∈ ['(', ')', '"', '|', ';', '{', '}', '\\']) :
    c ≠ d := by
  simp only [plain, decide_eq_true_eq] at h
  rintro rfl
  exact h.2.1 hd

theorem isDigit_wordChar (h : c.isDigit) : Patterns.wordChar c := by
  simp only [Char.isDigit, Bool.and_eq_true, decide_eq_true_eq, ge_iff_le, UInt32.le_iff_toNat_le] at h
  have hlow : 48 ≤ c.toNat := h.1
  have hhigh : c.toNat ≤ 57 := h.2
  have hne (d : Char) (hd : d.toNat < 48) : c ≠ d := by
    rintro rfl
    omega
  simp only [Patterns.wordChar, isSpace, decide_eq_true_eq]
  exact ⟨hne _ (by decide), by omega, hne _ (by decide), hne _ (by decide)⟩

theorem stringKey_wordChars (n : Nat) : ∀ c ∈ stringKey n, Patterns.wordChar c := by
  intro c hc
  simp only [stringKey, List.mem_cons, List.mem_append, List.not_mem_nil, or_false] at hc
  rcases hc with (rfl | hc) | rfl
  · decide
  · exact isDigit_wordChar (Nat.isDigit_of_mem_toDigits (by decide) (by decide) hc)
  · decide

namespace Coded

theorem wordChars (h : Coded strings e s w) : ∀ c ∈ e, Patterns.wordChar c := by
  induction h with
  | nil => simp
  | bare hc _ ih => exact List.forall_mem_cons.mpr ⟨plain_wordChar hc, ih⟩
  | key _ _ ih =>
    exact fun c hc => (List.mem_append.mp hc).elim (stringKey_wordChars _ c) (ih c)

theorem append {e' s' w' : List Char} (h : Coded strings e s w) (h' : Coded strings e' s' w') :
    Coded strings (e ++ e') (s ++ s') (w ++ w') := by
  induction h with
  | nil => exact h'
  | bare hc _ ih => exact .bare hc ih
  | key hn _ ih =>
    rw [List.append_assoc, List.append_assoc, List.append_assoc]
    exact .key hn ih

theorem plains (h : ∀ c ∈ e, plain c) : Coded strings e e e := by
  induction e with
  | nil => exact .nil
  | cons c e ih => exact .bare (h c List.mem_cons_self) (ih fun d hd => h d (List.mem_cons_of_mem _ hd))

theorem spells (h : Coded strings e s w) : Spells s w := by
  induction h with
  | nil => exact .nil
  | bare hc _ ih =>
    refine .bare ⟨plain_ne hc (by decide), plain_ne hc (by decide), ?_⟩ ih
    simp only [plain, decide_eq_true_eq] at hc
    exact hc.2.2
  | key _ _ ih => exact (Spells.escaped _).append ih

theorem key_match (n : Nat) (s : List Char) :
    Patterns.key (stringKey n ++ s) = some (Nat.toDigits 10 n ++ ['}']).length.succ := by
  have hdigits : ∀ c ∈ Nat.toDigits 10 n, Char.isDigit c :=
    fun c hc => Nat.isDigit_of_mem_toDigits (by decide) (by decide) hc
  have htake : (Nat.toDigits 10 n ++ '}' :: s).takeWhile Char.isDigit = Nat.toDigits 10 n :=
    takeWhile_run hdigits (by simp)
  have htext : stringKey n ++ s = '{' :: (Nat.toDigits 10 n ++ '}' :: s) := by simp [stringKey]
  rw [htext, Patterns.key]
  simp only [htake, List.drop_left, List.head?_cons, if_true]
  simp

theorem key_starts : Patterns.key.Starts (· = '{') := by
  intro c s hc
  rw [Patterns.key]
  exact fun _ hcons => hc (List.cons.inj hcons).1

theorem lookup (h : Coded strings e s w) (t : List Char) :
    lookupStrings strings (Patterns.key.scan (e ++ t)) =
      (lookupStrings strings (Patterns.key.scan t)).map (s ++ ·) := by
  induction h with
  | nil => simp
  | bare hc _ ih =>
    rw [List.cons_append, Pattern.scan_cons (key_starts _ _ (plain_ne hc (by decide))),
      lookupStrings, ih, Option.map_map]
    rfl
  | @key n u e s w hn _ ih =>
    have hscan := Pattern.scan_match (c := '{') (u := Nat.toDigits 10 n ++ ['}']) (s := e ++ t)
      (p := Patterns.key) (key_match n (e ++ t))
    rw [List.append_assoc]
    change lookupStrings strings (Patterns.key.scan ('{' :: (Nat.toDigits 10 n ++ ['}']) ++ (e ++ t))) = _
    rw [hscan, lookupStrings, ih]
    change (strings.lookup (stringKey n)).bind _ = _
    rw [hn]
    cases lookupStrings strings (Patterns.key.scan t) <;> simp

end Coded

inductive Lexeme
  | opening
  | closing
  | word (e s w : List Char)

namespace Lexeme

def raw : Lexeme → List Char
  | .opening => ['(']
  | .closing => [')']
  | .word e _ _ => e

def quoted : Lexeme → List Char
  | .opening => ['(']
  | .closing => [')']
  | .word e _ _ => '"' :: e ++ ['"']

def bracketed : Lexeme → List Char
  | .opening => ['[']
  | .closing => [']']
  | .word e _ _ => '"' :: e ++ ['"']

def json : Lexeme → List Char
  | .opening => ['[']
  | .closing => [']']
  | .word _ s _ => '"' :: s ++ ['"']

def mark : Lexeme → Mark
  | .opening => .opening
  | .closing => .closing
  | .word _ _ w => .str (String.ofList w)

def Good (strings : Strings) : Lexeme → Prop
  | .word e s w => e ≠ [] ∧ Coded strings e s w
  | _ => True

end Lexeme

/-- A lexeme, the comma right after it, if there is one, and the white space up to the next. -/
structure Item where
  lexeme : Lexeme
  comma : Bool
  after : List Char

def Item.Good (strings : Strings) (i : Item) : Prop :=
  i.lexeme.Good strings ∧ ∀ c ∈ i.after, isSpace c

def Item.text (r : Lexeme → List Char) (i : Item) : List Char :=
  r i.lexeme ++ (if i.comma then [','] else []) ++ i.after

namespace Items

def text (r : Lexeme → List Char) (items : List Item) : List Char := items.flatMap (Item.text r)

@[simp] theorem text_cons (r : Lexeme → List Char) (i : Item) (items : List Item) :
    text r (i :: items) = i.text r ++ text r items := rfl

def next (items : List Item) : Option Lexeme := items.head?.map Item.lexeme

/-- Every item changed with a view to the lexeme that comes next. -/
def adjust (f : Item → Option Lexeme → Item) : List Item → List Item
  | [] => []
  | i :: items => f i (next items) :: adjust f items

variable {r : Lexeme → List Char} {f g : Item → Option Lexeme → Item} {items : List Item} {i : Item}
  {p : Pattern Char} {q : List Char → List Char}

theorem next_adjust (hf : ∀ i n, (f i n).lexeme = i.lexeme) :
    next (adjust f items) = next items := by
  cases items with
  | nil => rfl
  | cons i items => exact congrArg some (hf i _)

theorem adjust_adjust (hf : ∀ i n, (f i n).lexeme = i.lexeme) :
    adjust g (adjust f items) = adjust (fun i n => g (f i n) n) items := by
  induction items with
  | nil => rfl
  | cons i items ih => rw [adjust, adjust, adjust, next_adjust hf, ih]

theorem good_adjust (hf : ∀ i n, i.Good strings → (f i n).Good strings)
    (h : ∀ i ∈ items, i.Good strings) : ∀ i ∈ adjust f items, i.Good strings := by
  induction items with
  | nil => simp [adjust]
  | cons i items ih =>
    rw [List.forall_mem_cons] at h
    exact List.forall_mem_cons.mpr ⟨hf i _ h.1, ih h.2⟩

/-- A substitution that changes every item with a view to the next one only. -/
theorem sub_text (h : ∀ i ∈ items, i.Good strings)
    (hp : ∀ i items, i.Good strings → p.sub q (i.text r ++ text r items) =
      (f i (next items)).text r ++ p.sub q (text r items)) :
    p.sub q (text r items) = text r (adjust f items) := by
  induction items with
  | nil => rfl
  | cons i items ih =>
    rw [List.forall_mem_cons] at h
    rw [text_cons, hp i items h.1, ih h.2]
    rfl

/-- The first character of a quoted lexeme. -/
def front : Lexeme → Char
  | .opening => '('
  | .closing => ')'
  | .word _ _ _ => '"'

theorem head_quoted (items : List Item) :
    (text Lexeme.quoted items).head? = (next items).map front := by
  cases items with
  | nil => rfl
  | cons i items =>
    obtain ⟨l, comma, after⟩ := i
    cases l <;> rfl

theorem front_notSpace (l : Lexeme) : isSpace (front l) = false := by
  cases l <;> rfl

theorem quoted_notSpace (items : List Item) :
    ∀ c ∈ (text Lexeme.quoted items).head?, isSpace c = false := by
  rw [head_quoted]
  intro c hc
  obtain ⟨l, -, rfl⟩ := Option.mem_map.mp hc
  exact front_notSpace l

theorem dropWhile_quoted {t : List Char} (ht : ∀ c ∈ t, isSpace c) (items : List Item) :
    (t ++ text Lexeme.quoted items).dropWhile isSpace = text Lexeme.quoted items :=
  dropWhile_run ht (quoted_notSpace items)

/-- A pattern that begins with a comma does not match inside a quoted atom. -/
theorem sub_quoted_comma (hp : p.Starts (· = ','))
    (hnone : ∀ c s, isSpace c = false → c ≠ ')' → p (',' :: c :: s) = none) {e : List Char}
    (he : ∀ c ∈ e, Patterns.wordChar c) (t : List Char) :
    p.sub q ('"' :: e ++ ['"'] ++ t) = '"' :: e ++ ['"'] ++ p.sub q t := by
  have hword : ∀ e : List Char, (∀ c ∈ e, Patterns.wordChar c) →
      p.sub q (e ++ '"' :: t) = e ++ '"' :: p.sub q t := by
    intro e
    induction e with
    | nil => exact fun _ => hp.sub_cons (by decide)
    | cons c e ih =>
      intro he
      rw [List.forall_mem_cons] at he
      have hc : p (c :: (e ++ '"' :: t)) = none := by
        by_cases hcomma : c = ','
        · rw [hcomma]
          cases e with
          | nil => exact hnone _ _ (by decide) (by decide)
          | cons d e =>
            have hd := he.2 d List.mem_cons_self
            simp only [Patterns.wordChar, decide_eq_true_eq] at hd
            exact hnone d _ (by simpa using hd.2.1) hd.2.2.2
        · exact hp c _ hcomma
      rw [List.cons_append, Pattern.sub_cons hc, ih he.2, List.cons_append]
  have hrest := hword e he
  simp only [List.cons_append, List.append_assoc, List.nil_append]
  rw [hp.sub_cons (by decide), hrest]

section Passes

def isWord : Lexeme → Bool
  | .word _ _ _ => true
  | _ => false

/-- Two atoms do not touch. -/
def Apart (i j : Item) : Prop := isWord i.lexeme → isWord j.lexeme → i.after ≠ []

def quote (i : Item) (_ : Option Lexeme) : Item :=
  match i.lexeme with
  | .word _ _ _ => { i with comma := true, after := ' ' :: i.after }
  | _ => i

def dropComma (i : Item) : Option Lexeme → Item
  | some .closing => if i.comma then { i with comma := false, after := [] } else i
  | _ => i

def joinLists (i : Item) : Option Lexeme → Item
  | some .opening =>
    match i.lexeme with
    | .closing => if i.comma then i else { i with comma := true, after := [' '] }
    | _ => i
  | _ => i

def closeLast (i : Item) : Option Lexeme → Item
  | some .closing => i
  | _ =>
    match i.lexeme with
    | .closing => if i.comma then i else { i with comma := true, after := ' ' :: i.after }
    | _ => i

def dropTrailing (i : Item) : Option Lexeme → Item
  | none => if i.comma then { i with comma := false, after := [] } else i
  | _ => i

theorem word_stop (h : Patterns.wordChar c = false) (s : List Char) :
    Patterns.word (c :: s) = none := by
  simp [Patterns.word, h]

theorem word_starts : Patterns.word.Starts (Patterns.wordChar ·) := by
  intro c s hc
  exact word_stop (by simpa using hc) s

theorem word_run {e t : List Char} (hc : Patterns.wordChar c) (he : ∀ c ∈ e, Patterns.wordChar c)
    (ht : ∀ c ∈ t.head?, Patterns.wordChar c = false) :
    Patterns.word (c :: e ++ t) = some (e.length + 1) := by
  rw [Patterns.word, takeWhile_run (List.forall_mem_cons.mpr ⟨hc, he⟩) ht]
  rfl

theorem space_notWord (h : isSpace c) : Patterns.wordChar c = false := by
  simp [Patterns.wordChar, h]

/-- After an atom that touches no other the text goes on with no character of an atom. -/
theorem raw_stop (hi : i.Good strings) (hword : isWord i.lexeme) (hcomma : i.comma = false)
    (h : List.IsChain Apart (i :: items)) :
    ∀ c ∈ ((if i.comma then [','] else []) ++ i.after ++ text Lexeme.raw items).head?,
      Patterns.wordChar c = false := by
  rw [hcomma]
  cases ha : i.after with
  | cons c after =>
    have hc := hi.2 c (ha ▸ List.mem_cons_self)
    simpa using space_notWord hc
  | nil =>
    cases items with
    | nil => simp [text]
    | cons j items =>
      have hapart := (List.isChain_cons_cons.mp h).1
      obtain ⟨l, comma, after⟩ := j
      cases l with
      | opening | closing => simpa [text, Item.text, Lexeme.raw] using by decide
      | word e s w => exact absurd ha (hapart hword rfl)

theorem sub_word (h : ∀ i ∈ items, i.Good strings) (hcomma : ∀ i ∈ items, i.comma = false)
    (hchain : List.IsChain Apart items) :
    Patterns.word.sub (fun w => '"' :: w ++ ['"', ',', ' ']) (text Lexeme.raw items) =
      text Lexeme.quoted (adjust quote items) := by
  induction items with
  | nil => rfl
  | cons i items ih =>
    rw [List.forall_mem_cons] at h hcomma
    have hrest := ih h.2 hcomma.2 hchain.of_cons
    have hspaces : ∀ c ∈ i.after, ¬ Patterns.wordChar c := by
      intro c hc
      simp [space_notWord (h.1.2 c hc)]
    have hstop := fun hword => raw_stop h.1 hword hcomma.1 hchain
    obtain ⟨l, comma, after⟩ := i
    obtain rfl : comma = false := hcomma.1
    rw [text_cons, adjust, text_cons, ← hrest]
    cases l with
    | opening | closing =>
      simp only [Item.text, Lexeme.raw, Lexeme.quoted, quote, List.append_assoc]
      simp only [List.cons_append, List.nil_append, Bool.false_eq_true, if_false]
      rw [word_starts.sub_cons (by decide), word_starts.sub_append hspaces]
    | word e s w =>
      obtain ⟨hne, hcoded⟩ := h.1.1
      obtain ⟨c, e, rfl⟩ := List.exists_cons_of_ne_nil hne
      have hwords := hcoded.wordChars
      rw [List.forall_mem_cons] at hwords
      have hmatch := word_run hwords.1 hwords.2 (hstop rfl)
      simp only [Item.text, Lexeme.raw, Lexeme.quoted, quote, List.append_assoc] at hmatch ⊢
      rw [Pattern.sub_match hmatch]
      simp only [List.cons_append, List.nil_append, Bool.false_eq_true, if_false, if_true,
        List.append_assoc]
      rw [word_starts.sub_append hspaces]

theorem apart_starts (a b : Char) : (Patterns.apart a b).Starts (· = a) := by
  intro c s hc
  rw [Patterns.apart, if_neg hc]

theorem apart_match {a b : Char} {t : List Char} (ht : ∀ c ∈ t, isSpace c)
    (hb : isSpace b = false) (s : List Char) :
    Patterns.apart a b (a :: (t ++ [b]) ++ s) = some ((t ++ [b]).length + 1) := by
  have hstop : ∀ c ∈ (b :: s).head?, isSpace c = false := by simpa using hb
  rw [List.cons_append, List.append_assoc, List.singleton_append, Patterns.apart, if_pos rfl,
    dropWhile_run ht hstop, takeWhile_run ht hstop]
  simp

theorem apart_none {a b : Char} {s : List Char} (h : (s.dropWhile isSpace).head? ≠ some b) :
    Patterns.apart a b (a :: s) = none := by
  rw [Patterns.apart, if_pos rfl, if_neg h]

theorem space_ne {d : Char} (h : isSpace c) (hd : isSpace d = false) : c ≠ d := by
  rintro rfl
  rw [hd] at h
  cases h

/-- A substitution of commas leaves a lexeme alone. -/
theorem sub_lexeme_comma (hp : p.Starts (· = ','))
    (hnone : ∀ c s, isSpace c = false → c ≠ ')' → p (',' :: c :: s) = none) {l : Lexeme}
    (hl : l.Good strings) (t : List Char) :
    p.sub q (l.quoted ++ t) = l.quoted ++ p.sub q t := by
  cases l with
  | opening | closing => exact hp.sub_cons (by decide)
  | word e s w => exact sub_quoted_comma hp hnone hl.2.wordChars t

/-- A substitution of brackets leaves a quoted atom alone. -/
theorem sub_word_bracket {a : Char} (hp : p.Starts (· = a)) (ha : a = '(' ∨ a = ')')
    (he : ∀ c ∈ e, Patterns.wordChar c) (t : List Char) :
    p.sub q ('"' :: e ++ ['"'] ++ t) = '"' :: e ++ ['"'] ++ p.sub q t := by
  refine hp.sub_append fun c hc => ?_
  rintro rfl
  simp only [List.cons_append, List.mem_cons, List.mem_append, List.not_mem_nil, or_false] at hc
  have hquote : c ≠ '"' := by rcases ha with rfl | rfl <;> decide
  have hword : Patterns.wordChar c = false := by rcases ha with rfl | rfl <;> decide
  rcases hc with hc | hc | hc
  · exact hquote hc
  · rw [he c hc] at hword
    cases hword
  · exact hquote hc

theorem sub_dropComma (h : ∀ i ∈ items, i.Good strings) :
    (Patterns.apart ',' ')').sub (fun _ => [')']) (text Lexeme.quoted items) =
      text Lexeme.quoted (adjust dropComma items) := by
  refine sub_text h fun i items hi => ?_
  have hstarts := apart_starts ',' ')'
  have hnone (c : Char) (s : List Char) (hc : isSpace c = false) (hne : c ≠ ')') :
      Patterns.apart ',' ')' (',' :: c :: s) = none :=
    apart_none (by simp [hc, hne])
  have hspaces : ∀ c ∈ i.after, c ≠ ',' := fun c hc => space_ne (hi.2 c hc) (by decide)
  obtain ⟨l, comma, after⟩ := i
  simp only [Item.text, List.append_assoc]
  rw [sub_lexeme_comma hstarts hnone hi.1]
  cases comma with
  | false =>
    have hkeep : dropComma ⟨l, false, after⟩ (next items) = ⟨l, false, after⟩ := by
      rw [dropComma.eq_def]
      split <;> rfl
    rw [hkeep]
    simp only [Bool.false_eq_true, if_false, List.nil_append, hstarts.sub_append hspaces]
  | true =>
    cases items with
    | nil =>
      have hmiss : Patterns.apart ',' ')' (',' :: (after ++ text Lexeme.quoted [])) = none :=
        apart_none (by rw [dropWhile_quoted hi.2]; simp [text])
      simp only [next, List.head?_nil, Option.map_none, dropComma, if_true, List.cons_append,
        List.nil_append]
      rw [Pattern.sub_cons hmiss, hstarts.sub_append hspaces]
    | cons j items =>
      obtain ⟨k, comma', after'⟩ := j
      cases k with
      | closing =>
        have htext : text Lexeme.quoted (⟨.closing, comma', after'⟩ :: items) =
            ')' :: ((if comma' then [','] else []) ++ after' ++ text Lexeme.quoted items) := by
          simp [Item.text, Lexeme.quoted]
        have hmatch := apart_match (a := ',') (b := ')') hi.2 (by decide)
          ((if comma' then [','] else []) ++ after' ++ text Lexeme.quoted items)
        simp only [next, List.head?_cons, Option.map_some, dropComma, if_true]
        rw [htext, hstarts.sub_cons (by decide)]
        have hshape (t : List Char) : [','] ++ (after ++ ')' :: t) = ',' :: (after ++ [')']) ++ t := by
          simp
        rw [hshape, Pattern.sub_match hmatch]
        simp
      | opening | word e s w =>
        have hmiss (j : Item) (hj : front j.lexeme ≠ ')') : Patterns.apart ',' ')'
            (',' :: (after ++ text Lexeme.quoted (j :: items))) = none :=
          apart_none (by rw [dropWhile_quoted hi.2, head_quoted]; simpa [next] using hj)
        simp only [next, List.head?_cons, Option.map_some, dropComma, if_true, List.cons_append,
          List.nil_append]
        rw [Pattern.sub_cons (hmiss _ (by simp [front])), hstarts.sub_append hspaces]

theorem joinLists_of_ne {n : Option Lexeme} (h : i.lexeme = .closing → i.comma = true) :
    joinLists i n = i := by
  rw [joinLists.eq_def]
  split
  · split
    · rename_i hl
      rw [if_pos (h hl)]
    · rfl
  · rfl

theorem closeLast_of_ne {n : Option Lexeme} (h : i.lexeme = .closing → i.comma = true) :
    closeLast i n = i := by
  rw [closeLast.eq_def]
  split
  · rfl
  · split
    · rename_i hl
      rw [if_pos (h hl)]
    · rfl

/-- A substitution of closing brackets leaves an item without one alone. -/
theorem sub_item_closing (hp : p.Starts (· = ')')) (hi : i.Good strings)
    (hl : i.lexeme ≠ .closing) (t : List Char) :
    p.sub q (i.text Lexeme.quoted ++ t) = i.text Lexeme.quoted ++ p.sub q t := by
  obtain ⟨l, comma, after⟩ := i
  have hrest : ∀ c ∈ (if comma then [','] else []) ++ after, c ≠ ')' := by
    intro c hc
    rw [List.mem_append] at hc
    rcases hc with hc | hc
    · cases comma with
      | false => cases hc
      | true =>
        rw [if_pos rfl, List.mem_singleton] at hc
        rw [hc]
        decide
    · exact space_ne (hi.2 c hc) (by decide)
  have hshape (u : List Char) : Item.text Lexeme.quoted ⟨l, comma, after⟩ ++ u =
      l.quoted ++ ((if comma then [','] else []) ++ after ++ u) := by simp [Item.text]
  rw [hshape, hshape]
  cases l with
  | closing => exact absurd rfl hl
  | opening =>
    rw [Lexeme.quoted, List.singleton_append, List.singleton_append, hp.sub_cons (by decide),
      hp.sub_append hrest]
  | word e s w =>
    rw [Lexeme.quoted, sub_word_bracket hp (.inr rfl) hi.1.2.wordChars, hp.sub_append hrest]

theorem sub_joinLists (h : ∀ i ∈ items, i.Good strings) :
    (Patterns.apart ')' '(').sub (fun _ => [')', ',', ' ', '(']) (text Lexeme.quoted items) =
      text Lexeme.quoted (adjust joinLists items) := by
  refine sub_text h fun i items hi => ?_
  have hstarts := apart_starts ')' '('
  by_cases hl : i.lexeme = .closing
  · have hspaces : ∀ c ∈ i.after, c ≠ ')' := fun c hc => space_ne (hi.2 c hc) (by decide)
    obtain ⟨l, comma, after⟩ := i
    obtain rfl : l = .closing := hl
    cases comma with
    | true =>
      have hmiss (s : List Char) : Patterns.apart ')' '(' (')' :: ',' :: s) = none :=
        apart_none (by simp [show isSpace ',' = false by decide])
      rw [joinLists_of_ne fun _ => rfl]
      simp only [Item.text, Lexeme.quoted, if_true, List.cons_append, List.nil_append]
      rw [Pattern.sub_cons (hmiss _), hstarts.sub_cons (by decide), hstarts.sub_append hspaces]
    | false =>
      have hmiss (hne : (next items).map front ≠ some '(') :
          Patterns.apart ')' '(' (')' :: (after ++ text Lexeme.quoted items)) = none :=
        apart_none (by rwa [dropWhile_quoted hi.2, head_quoted])
      have hkeep (hne : (next items).map front ≠ some '(') :
          (Patterns.apart ')' '(').sub (fun _ => [')', ',', ' ', '('])
            (Item.text Lexeme.quoted ⟨.closing, false, after⟩ ++ text Lexeme.quoted items) =
          Item.text Lexeme.quoted ⟨.closing, false, after⟩ ++
            (Patterns.apart ')' '(').sub (fun _ => [')', ',', ' ', '(']) (text Lexeme.quoted items) := by
        simp only [Item.text, Lexeme.quoted, Bool.false_eq_true, if_false, List.cons_append,
          List.nil_append]
        rw [Pattern.sub_cons (hmiss hne), hstarts.sub_append hspaces]
      cases items with
      | nil => exact hkeep (by simp [next])
      | cons j items =>
        obtain ⟨k, comma', after'⟩ := j
        cases k with
        | closing | word e s w => exact hkeep (by simp [next, front])
        | opening =>
          have hmatch := apart_match (a := ')') (b := '(') hi.2 (by decide)
            ((if comma' then [','] else []) ++ after' ++ text Lexeme.quoted items)
          have htext : text Lexeme.quoted (⟨.opening, comma', after'⟩ :: items) =
              '(' :: ((if comma' then [','] else []) ++ after' ++ text Lexeme.quoted items) := by
            simp [Item.text, Lexeme.quoted]
          have hshape (t : List Char) : Item.text Lexeme.quoted ⟨.closing, false, after⟩ ++ '(' :: t =
              ')' :: (after ++ ['(']) ++ t := by
            simp [Item.text, Lexeme.quoted]
          rw [htext, hshape, Pattern.sub_match hmatch, hstarts.sub_cons (by decide)]
          rfl
  · rw [joinLists_of_ne fun hc => absurd hc hl]
    exact sub_item_closing hstarts hi hl _

theorem last_starts : Patterns.last.Starts (· = ')') := by
  intro c s hc
  rw [Patterns.last]
  exact fun _ hcons => hc (List.cons.inj hcons).1

theorem sub_closeLast (h : ∀ i ∈ items, i.Good strings) :
    Patterns.last.sub (fun _ => [')', ',', ' ']) (text Lexeme.quoted items) =
      text Lexeme.quoted (adjust closeLast items) := by
  refine sub_text h fun i items hi => ?_
  by_cases hl : i.lexeme = .closing
  · have hspaces : ∀ c ∈ i.after, c ≠ ')' := fun c hc => space_ne (hi.2 c hc) (by decide)
    obtain ⟨l, comma, after⟩ := i
    obtain rfl : l = .closing := hl
    cases comma with
    | true =>
      have hmiss (s : List Char) : Patterns.last (')' :: ',' :: s) = none := by
        simp [Patterns.last, show isSpace ',' = false by decide]
      rw [closeLast_of_ne fun _ => rfl]
      simp only [Item.text, Lexeme.quoted, if_true, List.cons_append, List.nil_append]
      rw [Pattern.sub_cons (hmiss _), last_starts.sub_cons (by decide),
        last_starts.sub_append hspaces]
    | false =>
      have hhead : ((after ++ text Lexeme.quoted items).dropWhile isSpace).head? =
          (next items).map front := by rw [dropWhile_quoted hi.2, head_quoted]
      by_cases hnext : next items = some .closing
      · have hmiss : Patterns.last (')' :: (after ++ text Lexeme.quoted items)) = none := by
          rw [Patterns.last]
          simp only [hhead, hnext, Option.map_some, front]
          rfl
        rw [hnext]
        simp only [closeLast, Item.text, Lexeme.quoted, Bool.false_eq_true, if_false,
          List.cons_append, List.nil_append]
        rw [Pattern.sub_cons hmiss, last_starts.sub_append hspaces]
      · have hne : (next items).map front ≠ some ',' ∧ (next items).map front ≠ some ')' := by
          cases hn : next items with
          | none => simp
          | some k =>
            cases k with
            | closing => exact absurd hn hnext
            | opening | word e s w => simp [front]
        have hmatch : Patterns.last (')' :: [] ++ (after ++ text Lexeme.quoted items)) =
            some (([] : List Char).length + 1) := by
          rw [List.cons_append, List.nil_append, Patterns.last]
          simp only [hhead, hne.1, hne.2, or_self, if_false]
          rfl
        have hclose :
            closeLast ⟨.closing, false, after⟩ (next items) = ⟨.closing, true, ' ' :: after⟩ := by
          rw [closeLast.eq_def]
          split
          · exact absurd ‹_› hnext
          · rfl
        have hshape : Item.text Lexeme.quoted ⟨.closing, false, after⟩ ++ text Lexeme.quoted items =
            ')' :: [] ++ (after ++ text Lexeme.quoted items) := by simp [Item.text, Lexeme.quoted]
        rw [hclose, hshape, Pattern.sub_match hmatch, last_starts.sub_append hspaces]
        simp [Item.text, Lexeme.quoted]
  · rw [closeLast_of_ne fun hc => absurd hc hl]
    exact sub_item_closing last_starts hi hl _

theorem trailing_starts : Patterns.trailing.Starts (· = ',') := by
  intro c s hc
  rw [Patterns.trailing]
  exact fun _ hcons => hc (List.cons.inj hcons).1

theorem sub_dropTrailing (h : ∀ i ∈ items, i.Good strings) :
    Patterns.trailing.sub (fun _ => []) (text Lexeme.quoted items) =
      text Lexeme.quoted (adjust dropTrailing items) := by
  refine sub_text h fun i items hi => ?_
  have hnone (c : Char) (s : List Char) (hc : isSpace c = false) (_ : c ≠ ')') :
      Patterns.trailing (',' :: c :: s) = none := by
    simp [Patterns.trailing, hc]
  have hspaces : ∀ c ∈ i.after, c ≠ ',' := fun c hc => space_ne (hi.2 c hc) (by decide)
  obtain ⟨l, comma, after⟩ := i
  simp only [Item.text, List.append_assoc]
  rw [sub_lexeme_comma trailing_starts hnone hi.1]
  cases comma with
  | false =>
    have hkeep : dropTrailing ⟨l, false, after⟩ (next items) = ⟨l, false, after⟩ := by
      rw [dropTrailing.eq_def]
      split <;> rfl
    rw [hkeep]
    simp only [Bool.false_eq_true, if_false, List.nil_append, trailing_starts.sub_append hspaces]
  | true =>
    cases items with
    | nil =>
      have hall : after.dropWhile isSpace = [] := by
        simpa using dropWhile_run (t := []) hi.2 (by simp)
      have hmatch : Patterns.trailing (',' :: after ++ []) = some (after.length + 1) := by
        rw [List.append_nil, Patterns.trailing, if_pos hall]
      have hdrop := Pattern.sub_match (r := fun _ => []) hmatch
      simp only [next, List.head?_nil, Option.map_none, dropTrailing, if_true, List.cons_append,
        List.nil_append, List.append_nil] at hdrop ⊢
      simpa [text] using hdrop
    | cons j items =>
      have hmiss :
          Patterns.trailing (',' :: (after ++ text Lexeme.quoted (j :: items))) = none := by
        have hhead := head_quoted (j :: items)
        rw [Patterns.trailing, dropWhile_quoted hi.2, if_neg]
        intro hempty
        rw [hempty] at hhead
        cases hhead
      simp only [next, List.head?_cons, Option.map_some, dropTrailing, if_true, List.cons_append,
        List.nil_append]
      rw [Pattern.sub_cons hmiss, trailing_starts.sub_append hspaces]

end Passes

end Items

end Smts.Server
