import Mathlib.Data.List.Chain
import Mathlib.Data.List.TakeWhile
import Smts.Server.Reading

namespace Smts.Server

open Smts.Lib
open Smts.Lib.Json (Mark)

namespace Smtlib

/-- A string literal is given by the parts between its doubled quotes. -/
inductive Token
  | opening
  | closing
  | atom (s : List Char)
  | quoted (s : List Char)
  | string (parts : List (List Char))

def Token.text : Token → List Char
  | .opening => ['(']
  | .closing => [')']
  | .atom s => s
  | .quoted s => '|' :: s ++ ['|']
  | .string parts => parts.flatMap fun s => '"' :: s ++ ['"']

def Token.Wf : Token → Prop
  | .atom s => s ≠ [] ∧ ∀ c ∈ s, plain c
  | .quoted s => '|' ∉ s
  | .string parts => parts ≠ [] ∧ ∀ s ∈ parts, '"' ∉ s
  | _ => True

def Token.isAtom : Token → Bool
  | .opening => false
  | .closing => false
  | _ => true

def Token.mark : Token → Mark
  | .opening => .opening
  | .closing => .closing
  | t => .str (String.ofList t.text)

/-- A token or a character of white space. -/
abbrev Part := Token ⊕ Char

def Part.text : Part → List Char := Sum.elim Token.text fun c => [c]

def Part.Wf : Part → Prop := Sum.elim Token.Wf (· ∈ Items.blanks)

def Part.isAtom : Part → Bool := Sum.elim Token.isAtom fun _ => false

def partsText (ps : List Part) : List Char := ps.flatMap Part.text

def tokens (ps : List Part) : List Mark :=
  ps.flatMap (Sum.elim (fun t => [t.mark]) fun _ => [])

@[simp] theorem partsText_nil : partsText [] = [] := rfl

@[simp] theorem partsText_append (l m : List Part) :
    partsText (l ++ m) = partsText l ++ partsText m := List.flatMap_append

@[simp] theorem partsText_token (t : Token) (l : List Part) :
    partsText (.inl t :: l) = t.text ++ partsText l := rfl

@[simp] theorem partsText_blank (c : Char) (l : List Part) :
    partsText (.inr c :: l) = c :: partsText l := rfl

@[simp] theorem tokens_nil : tokens [] = [] := rfl

@[simp] theorem tokens_append (l m : List Part) : tokens (l ++ m) = tokens l ++ tokens m :=
  List.flatMap_append

@[simp] theorem tokens_token (t : Token) (l : List Part) :
    tokens (.inl t :: l) = t.mark :: tokens l := rfl

@[simp] theorem tokens_blank (c : Char) (l : List Part) : tokens (.inr c :: l) = tokens l := rfl

/-- No two atoms without white space between them. -/
def Spaced (ps : List Part) : Prop := List.IsChain (fun a b => a.isAtom → b.isAtom = false) ps

section Merged

/-- Atoms that touch are one atom: the one that a text begins with, and what follows it. -/
def words : List Part → List Char × List Mark
  | [] => ([], [])
  | .inl .opening :: ps =>
    let (w, ms) := words ps
    ([], .opening :: if w = [] then ms else .str (String.ofList w) :: ms)
  | .inl .closing :: ps =>
    let (w, ms) := words ps
    ([], .closing :: if w = [] then ms else .str (String.ofList w) :: ms)
  | .inl t :: ps =>
    let (w, ms) := words ps
    (t.text ++ w, ms)
  | .inr _ :: ps =>
    let (w, ms) := words ps
    ([], if w = [] then ms else .str (String.ofList w) :: ms)

def merged (ps : List Part) : List Mark :=
  if (words ps).1 = [] then (words ps).2 else .str (String.ofList (words ps).1) :: (words ps).2

variable {ps : List Part} {t : Token}

theorem words_atom (h : t.isAtom) (ps : List Part) :
    words (.inl t :: ps) = (t.text ++ (words ps).1, (words ps).2) := by
  cases t with
  | opening | closing => cases h
  | atom | quoted | string => rfl

theorem words_bracket (h : t.isAtom = false) (ps : List Part) :
    words (.inl t :: ps) = ([], t.mark :: merged ps) := by
  cases t with
  | opening | closing => rfl
  | atom | quoted | string => cases h

theorem words_blank (c : Char) (ps : List Part) : words (.inr c :: ps) = ([], merged ps) := rfl

theorem text_ne_nil (h : t.Wf) : t.text ≠ [] := by
  cases t with
  | opening | closing | quoted => simp [Token.text]
  | atom s => exact h.1
  | string parts =>
    obtain ⟨s, parts, rfl⟩ := List.exists_cons_of_ne_nil h.1
    simp [Token.text]

theorem mark_of_isAtom (h : t.isAtom) : t.mark = .str (String.ofList t.text) := by
  cases t with
  | opening | closing => cases h
  | atom | quoted | string => rfl

theorem words_fst_eq_nil (h : ∀ p ∈ ps, p.Wf) :
    (words ps).1 = [] ↔ ∀ p ∈ ps.head?, p.isAtom = false := by
  cases ps with
  | nil => simp [words]
  | cons p ps =>
    rcases p with t | c
    · cases ht : t.isAtom with
      | true =>
        have hne := text_ne_nil (h _ List.mem_cons_self)
        simp [words_atom ht, Part.isAtom, ht, hne]
      | false => simp [words_bracket ht, Part.isAtom, ht]
    · simp [words_blank, Part.isAtom]

theorem merged_blank (c : Char) (ps : List Part) : merged (.inr c :: ps) = merged ps := rfl

theorem merged_bracket (h : t.isAtom = false) (ps : List Part) :
    merged (.inl t :: ps) = t.mark :: merged ps := by
  rw [merged, words_bracket h, if_pos rfl]

theorem merged_atom (h : t.isAtom) (hwf : t.Wf) (ps : List Part) :
    merged (.inl t :: ps) = .str (String.ofList (t.text ++ (words ps).1)) :: (words ps).2 := by
  have hne := text_ne_nil hwf
  rw [merged, words_atom h, if_neg (by simp [hne])]

theorem spaced_cons {p : Part} : Spaced (p :: ps) ↔
    (∀ q ∈ ps.head?, p.isAtom → q.isAtom = false) ∧ Spaced ps := List.isChain_cons

/-- Atoms that touch make for fewer marks. -/
theorem merged_length (h : ∀ p ∈ ps, p.Wf) :
    (merged ps).length ≤ (tokens ps).length ∧
      ((merged ps).length = (tokens ps).length → Spaced ps) := by
  induction ps with
  | nil => exact ⟨Nat.le_refl 0, fun _ => .nil⟩
  | cons p ps ih =>
    rw [List.forall_mem_cons] at h
    obtain ⟨hle, hspaced⟩ := ih h.2
    have hplain (hp : p.isAtom = false) (hq : Spaced ps) : Spaced (p :: ps) := by
      refine spaced_cons.mpr ⟨fun q _ hatom => ?_, hq⟩
      rw [hp] at hatom
      cases hatom
    rcases p with t | c
    · cases ht : t.isAtom with
      | false =>
        rw [merged_bracket ht, tokens_token, List.length_cons, List.length_cons]
        exact ⟨Nat.succ_le_succ hle, fun he => hplain ht (hspaced (Nat.succ.inj he))⟩
      | true =>
        have hfst := words_fst_eq_nil h.2
        have hlen :
            (merged ps).length = (words ps).2.length + if (words ps).1 = [] then 0 else 1 := by
          rw [merged]
          split <;> rfl
        rw [merged_atom ht h.1, tokens_token, List.length_cons, List.length_cons]
        split at hlen
        · rename_i hnil
          refine ⟨by omega, fun he => spaced_cons.mpr ⟨fun q hq _ => hfst.mp hnil q hq, ?_⟩⟩
          exact hspaced (by omega)
        · exact ⟨by omega, fun he => absurd he (by omega)⟩
    · rw [merged_blank, tokens_blank]
      exact ⟨hle, fun he => hplain rfl (hspaced he)⟩

theorem merged_eq_tokens (h : ∀ p ∈ ps, p.Wf) : merged ps = tokens ps ↔ Spaced ps := by
  refine ⟨fun he => (merged_length h).2 (congrArg List.length he), fun hs => ?_⟩
  induction ps with
  | nil => rfl
  | cons p ps ih =>
    rw [List.forall_mem_cons] at h
    obtain ⟨hhead, hs⟩ := spaced_cons.mp hs
    have hrest := ih h.2 hs
    rcases p with t | c
    · cases ht : t.isAtom with
      | false => rw [merged_bracket ht, tokens_token, hrest]
      | true =>
        have hnil := (words_fst_eq_nil h.2).mpr fun q hq => hhead q hq ht
        rw [merged, if_pos hnil] at hrest
        rw [merged_atom ht h.1, hnil, List.append_nil, hrest, tokens_token, mark_of_isAtom ht]
    · rw [merged_blank, tokens_blank, hrest]

end Merged

section Gathering

/-- What stands for a part in the text once quoted symbols and strings are kept aside. -/
def Stands (strings : Strings) : Part → List Char → Prop
  | .inr c, v => v = [c]
  | .inl .opening, v => v = ['(']
  | .inl .closing, v => v = [')']
  | .inl t, v => v ≠ [] ∧ ∃ s, Coded strings v s t.text

structure Regular (strings : Strings) (items : List Item) : Prop where
  good : ∀ i ∈ items, i.Good strings
  comma : ∀ i ∈ items, i.comma = false
  chain : List.IsChain Items.Apart items
  blank : ∀ i ∈ items, ∀ c ∈ i.after, c ∈ Items.blanks

/-- The text of white space and items with these marks. -/
def Flushed (strings : Strings) (u : List Char) (ms : List Mark) : Prop :=
  ∃ bl items, u = bl ++ Items.text Lexeme.raw items ∧ (∀ c ∈ bl, c ∈ Items.blanks) ∧
    Regular strings items ∧ (items.map fun i => i.lexeme.mark) = ms

/-- The same after an atom, which may be empty. -/
def Gathered (strings : Strings) (u w : List Char) (ms : List Mark) : Prop :=
  ∃ e s bl items, u = e ++ (bl ++ Items.text Lexeme.raw items) ∧ Coded strings e s w ∧
    (e = [] ↔ w = []) ∧ (∀ c ∈ bl, c ∈ Items.blanks) ∧ Regular strings items ∧
    (items.map fun i => i.lexeme.mark) = ms ∧
    (bl = [] → ∀ i ∈ items.head?, Items.isWord i.lexeme = false)

variable {strings : Strings} {u v w : List Char} {ms : List Mark} {ps : List Part} {t : Token}

theorem blank_isSpace {c : Char} (h : c ∈ Items.blanks) : isSpace c := by
  simp only [Items.blanks, List.mem_cons, List.not_mem_nil, or_false] at h
  rcases h with rfl | rfl | rfl | rfl <;> rfl

theorem Regular.cons {l : Lexeme} {bl : List Char} {items : List Item}
    (h : Regular strings items) (hl : l.Good strings) (hbl : ∀ c ∈ bl, c ∈ Items.blanks)
    (hapart : Items.isWord l → bl = [] → ∀ i ∈ items.head?, Items.isWord i.lexeme = false) :
    Regular strings (⟨l, false, bl⟩ :: items) := by
  refine ⟨List.forall_mem_cons.mpr ⟨⟨hl, fun c hc => blank_isSpace (hbl c hc)⟩, h.good⟩,
    List.forall_mem_cons.mpr ⟨rfl, h.comma⟩, List.isChain_cons.mpr ⟨fun i hi hw hi' hnil => ?_, h.chain⟩,
    List.forall_mem_cons.mpr ⟨hbl, h.blank⟩⟩
  rw [hapart hw hnil i hi] at hi'
  cases hi'

theorem Gathered.flush (h : Gathered strings u w ms) :
    Flushed strings u (if w = [] then ms else .str (String.ofList w) :: ms) := by
  obtain ⟨e, s, bl, items, rfl, hcoded, hnil, hbl, hitems, hms, hapart⟩ := h
  split
  · rename_i hw
    rw [hnil.mpr hw]
    exact ⟨bl, items, rfl, hbl, hitems, hms⟩
  · rename_i hw
    have hne : e ≠ [] := fun he => hw (hnil.mp he)
    refine ⟨[], ⟨.word e s w, false, bl⟩ :: items, ?_, by simp, ?_, ?_⟩
    · simp [Item.text, Lexeme.raw]
    · exact hitems.cons ⟨hne, hcoded⟩ hbl fun _ => hapart
    · rw [List.map_cons, hms]
      rfl

theorem Flushed.bracket (h : Flushed strings u ms) (ht : t.isAtom = false) :
    Gathered strings (t.text ++ u) [] (t.mark :: ms) := by
  obtain ⟨bl, items, rfl, hbl, hitems, rfl⟩ := h
  have hword {l : Lexeme} (hl : l.Good strings) (hw : Items.isWord l = false) :
      Regular strings (⟨l, false, bl⟩ :: items) :=
    hitems.cons hl hbl fun h => absurd h (by simp [hw])
  cases t with
  | opening =>
    refine ⟨[], [], [], ⟨.opening, false, bl⟩ :: items, ?_, .nil, Iff.rfl, by simp,
      hword trivial rfl, rfl, by simp [Items.isWord]⟩
    simp [Token.text, Item.text, Lexeme.raw]
  | closing =>
    refine ⟨[], [], [], ⟨.closing, false, bl⟩ :: items, ?_, .nil, Iff.rfl, by simp,
      hword trivial rfl, rfl, by simp [Items.isWord]⟩
    simp [Token.text, Item.text, Lexeme.raw]
  | atom | quoted | string => cases ht

theorem Flushed.blank {c : Char} (h : Flushed strings u ms) (hc : c ∈ Items.blanks) :
    Gathered strings (c :: u) [] ms := by
  obtain ⟨bl, items, rfl, hbl, hitems, hms⟩ := h
  exact ⟨[], [], c :: bl, items, rfl, .nil, Iff.rfl, List.forall_mem_cons.mpr ⟨hc, hbl⟩, hitems,
    hms, fun he => absurd he (List.cons_ne_nil c bl)⟩

theorem gather {vs : List (List Char)} (h : List.Forall₂ (Stands strings) ps vs)
    (hwf : ∀ p ∈ ps, p.Wf) : Gathered strings vs.flatten (words ps).1 (words ps).2 := by
  induction h with
  | nil => exact ⟨[], [], [], [], rfl, .nil, Iff.rfl, by simp, ⟨by simp, by simp, .nil, by simp⟩, rfl,
      by simp⟩
  | @cons p v ps vs hp _ ih =>
    rw [List.forall_mem_cons] at hwf
    have hrest := ih hwf.2
    rw [List.flatten_cons]
    rcases p with t | c
    · cases ht : t.isAtom with
      | false =>
        have hv : v = t.text := by
          cases t with
          | opening | closing => exact hp
          | atom | quoted | string => cases ht
        rw [words_bracket ht, hv]
        exact hrest.flush.bracket ht
      | true =>
        have hv : v ≠ [] ∧ ∃ s, Coded strings v s t.text := by
          cases t with
          | opening | closing => cases ht
          | atom | quoted | string => exact hp
        obtain ⟨hne, s, hs⟩ := hv
        obtain ⟨e, s', bl, items, hu, hcoded, hnil, hbl, hitems, hms, hapart⟩ := hrest
        rw [words_atom ht]
        refine ⟨v ++ e, s ++ s', bl, items, by rw [hu, List.append_assoc], hs.append hcoded, ?_, hbl,
          hitems, hms, hapart⟩
        simp [hne, text_ne_nil hwf.1]
    · have hv : v = [c] := hp
      rw [hv, words_blank]
      exact hrest.flush.blank hwf.1

end Gathering

section Keeping

theorem stringKey_injective : Function.Injective stringKey := by
  intro m n h
  have hdigits : Nat.toDigits 10 m = Nat.toDigits 10 n := by
    simpa [stringKey] using h
  rw [← @Nat.ofDigitChars_ten_toDigits m, hdigits, Nat.ofDigitChars_ten_toDigits]

/-- The keys are the numbers in turn. -/
def Numbered (strings : Strings) : Prop :=
  strings.map Prod.fst = (List.range strings.length).map stringKey

def Keeps (strings strings' : Strings) : Prop :=
  Numbered strings' ∧ ∀ k v, strings.lookup k = some v → strings'.lookup k = some v

variable {strings strings' strings'' : Strings} {ps : List Part} {p : Part} {u v : List Char}

theorem Numbered.keeps (h : Numbered strings) : Keeps strings strings := ⟨h, fun _ _ => id⟩

theorem Keeps.trans (h : Keeps strings strings') (h' : Keeps strings' strings'') :
    Keeps strings strings'' := ⟨h'.1, fun k v hk => h'.2 k v (h.2 k v hk)⟩

theorem lookup_append (l m : Strings) (k : List Char) :
    (l ++ m).lookup k = (l.lookup k).or (m.lookup k) := by
  induction l with
  | nil => rfl
  | cons e l ih =>
    rw [List.cons_append, List.lookup_cons, List.lookup_cons, ih]
    split <;> rfl

theorem Numbered.lookup_eq_none (h : Numbered strings) :
    strings.lookup (stringKey strings.length) = none := by
  rw [List.lookup_eq_none_iff]
  intro e he
  have hmem : e.1 ∈ (List.range strings.length).map stringKey :=
    h ▸ List.mem_map_of_mem he
  obtain ⟨n, hn, hkey⟩ := List.mem_map.mp hmem
  rw [List.mem_range] at hn
  rw [← hkey, bne_iff_ne]
  intro hsame
  have hlen := stringKey_injective hsame
  omega

theorem Numbered.add (h : Numbered strings) (v : List Char) :
    Keeps strings (strings ++ [(stringKey strings.length, v)]) ∧
      (strings ++ [(stringKey strings.length, v)]).lookup (stringKey strings.length) = some v := by
  refine ⟨⟨?_, fun k x hk => by rw [lookup_append, hk, Option.some_or]⟩, ?_⟩
  · rw [Numbered, List.map_append, h, List.length_append, List.length_singleton, List.range_succ,
      List.map_append]
    rfl
  · rw [lookup_append, h.lookup_eq_none]
    simp

theorem dumps_inner (u : List Char) :
    ((Json.dumps u).drop 1).dropLast = u.flatMap Json.escape := by
  simp [Json.dumps]

theorem addStrings_inl (strings : Strings) (u : List Char) (l : List (Char ⊕ List Char)) :
    addStrings strings (u.map .inl ++ l) =
      (u ++ (addStrings strings l).1, (addStrings strings l).2) := by
  induction u with
  | nil => rfl
  | cons c u ih => rw [List.map_cons, List.cons_append, addStrings, ih, List.cons_append]

theorem addStrings_inr (strings : Strings) (u : List Char) (l : List (Char ⊕ List Char)) :
    addStrings strings (.inr u :: l) =
      let strings' := strings ++ [(stringKey strings.length, u.flatMap Json.escape)]
      (stringKey strings.length ++ (addStrings strings' l).1, (addStrings strings' l).2) := by
  rw [addStrings, dumps_inner]

theorem coded_mono {e s w : List Char} (h : Coded strings e s w) (hk : Keeps strings strings') :
    Coded strings' e s w := by
  induction h with
  | nil => exact .nil
  | bare hc _ ih => exact .bare hc ih
  | key hn _ ih => exact .key (hk.2 _ _ hn) ih

/-- What stands for a part once quoted symbols are kept aside. -/
def Barred (strings : Strings) : Part → List Char → Prop
  | .inl (.quoted s), u => ∃ n, u = stringKey n ∧
    strings.lookup (stringKey n) = some ((Token.quoted s).text.flatMap Json.escape)
  | p, u => u = p.text

theorem Barred.mono (h : Barred strings p u) (hk : Keeps strings strings') :
    Barred strings' p u := by
  rcases p with t | c
  · cases t with
    | quoted s =>
      obtain ⟨n, rfl, hn⟩ := h
      exact ⟨n, rfl, hk.2 _ _ hn⟩
    | opening | closing | atom | string => exact h
  · exact h

theorem Stands.mono (h : Stands strings p u) (hk : Keeps strings strings') :
    Stands strings' p u := by
  rcases p with t | c
  · cases t with
    | opening | closing => exact h
    | atom | quoted | string =>
      obtain ⟨hne, s, hs⟩ := h
      exact ⟨hne, s, coded_mono hs hk⟩
  · exact h

/-- A bar in a string literal is the last one. -/
def LastBar : List Part → Prop
  | [] => True
  | .inl (.string parts) :: ps =>
    ((Token.string parts).text.count '|' = 0 ∨ (partsText (.inl (.string parts) :: ps)).count '|' = 1) ∧
      LastBar ps
  | _ :: ps => LastBar ps

theorem bars_starts : Patterns.bars.Starts (· = '|') := by
  intro c s hc
  rw [Patterns.bars]
  exact fun _ hcons => hc (List.cons.inj hcons).1

theorem bars_match {s : List Char} (h : '|' ∉ s) (t : List Char) :
    Patterns.bars ('|' :: (s ++ ['|']) ++ t) = some ((s ++ ['|']).length + 1) := by
  have htake : (s ++ '|' :: t).takeWhile (· ≠ '|') = s := by
    refine takeWhile_run (fun c hc => ?_) (by simp)
    simp only [decide_eq_true_eq]
    rintro rfl
    exact h hc
  rw [List.cons_append, List.append_assoc, List.singleton_append, Patterns.bars, htake]
  simp

/-- A single bar does not match. -/
theorem scan_bar {w : List Char} (h : w.count '|' ≤ 1) : Patterns.bars.scan w = w.map .inl := by
  induction w with
  | nil => rfl
  | cons c w ih =>
    rw [List.count_cons] at h
    have hnone : Patterns.bars (c :: w) = none := by
      by_cases hc : c = '|'
      · rw [hc, Patterns.bars]
        have hw : '|' ∉ w := by
          rw [if_pos (by simp [hc])] at h
          exact List.count_eq_zero.mp (by omega)
        have hall : w.takeWhile (· ≠ '|') = w := by
          refine List.takeWhile_eq_self_iff.mpr fun d hd => ?_
          simp only [decide_eq_true_eq]
          rintro rfl
          exact hw hd
        rw [hall]
        simp
      · exact bars_starts c w hc
    rw [Pattern.scan_cons hnone, ih (by omega), List.map_cons]

theorem barred_text (h : ∀ s, p ≠ .inl (.quoted s)) : Barred strings p p.text := by
  rcases p with t | c
  · cases t with
    | quoted s => exact absurd rfl (h s)
    | opening | closing | atom | string => rfl
  · rfl

theorem bar_notMem_text (hwf : p.Wf) (h : ∀ s, p ≠ .inl (.quoted s))
    (hstring : ∀ parts, p ≠ .inl (.string parts)) : '|' ∉ p.text := by
  rcases p with t | c
  · cases t with
    | quoted s => exact absurd rfl (h s)
    | string parts => exact absurd rfl (hstring parts)
    | opening | closing => decide
    | atom s => exact fun hmem => plain_ne (hwf.2 _ hmem) (d := '|') (by decide) rfl
  · intro hmem
    obtain rfl : '|' = c := by simpa [Part.text] using hmem
    exact absurd (show '|' ∈ Items.blanks from hwf) (by decide)

theorem addStrings_bars (hwf : ∀ p ∈ ps, p.Wf) (hbar : LastBar ps) (hn : Numbered strings) :
    let result := addStrings strings (Patterns.bars.scan (partsText ps))
    Keeps strings result.2 ∧
      ∃ us, result.1 = us.flatten ∧ List.Forall₂ (Barred result.2) ps us := by
  induction ps generalizing strings with
  | nil => exact ⟨hn.keeps, [], rfl, .nil⟩
  | cons p ps ih =>
    rw [List.forall_mem_cons] at hwf
    have hplain (hbar' : LastBar ps) (hp : '|' ∉ p.text) (hq : ∀ s, p ≠ .inl (.quoted s)) :
        let result := addStrings strings (Patterns.bars.scan (partsText (p :: ps)))
        Keeps strings result.2 ∧
          ∃ us, result.1 = us.flatten ∧ List.Forall₂ (Barred result.2) (p :: ps) us := by
      obtain ⟨hkeeps, us, hus, hbarred⟩ := ih hwf.2 hbar' hn
      have hscan : Patterns.bars.scan (partsText (p :: ps)) =
          p.text.map .inl ++ Patterns.bars.scan (partsText ps) :=
        bars_starts.scan_append fun c hc he => hp (he ▸ hc)
      rw [hscan, addStrings_inl]
      exact ⟨hkeeps, p.text :: us, by rw [List.flatten_cons, ← hus], .cons (barred_text hq) hbarred⟩
    rcases p with t | c
    · cases t with
      | opening | closing | atom =>
        exact hplain hbar (bar_notMem_text hwf.1 (by simp) (by simp)) (by simp)
      | quoted s =>
        have hscan : Patterns.bars.scan (partsText (.inl (.quoted s) :: ps)) =
            .inr (Token.quoted s).text :: Patterns.bars.scan (partsText ps) :=
          Pattern.scan_match (bars_match hwf.1 (partsText ps))
        obtain ⟨hadd, hlookup⟩ := hn.add ((Token.quoted s).text.flatMap Json.escape)
        obtain ⟨hkeeps, us, hus, hbarred⟩ := ih hwf.2 hbar hadd.1
        rw [hscan, addStrings_inr]
        refine ⟨hadd.trans hkeeps, stringKey strings.length :: us, ?_, .cons ?_ hbarred⟩
        · rw [List.flatten_cons, ← hus]
        · exact ⟨_, rfl, hkeeps.2 _ _ hlookup⟩
      | string parts =>
        obtain ⟨hlast, hbar'⟩ := hbar
        rcases hlast with hnone | hone
        · exact hplain hbar' (List.count_eq_zero.mp hnone) (by simp)
        · have hscan := scan_bar (Nat.le_of_eq hone)
          have hadd := addStrings_inl strings (partsText (.inl (.string parts) :: ps)) []
          rw [List.append_nil] at hadd
          rw [hscan, hadd]
          refine ⟨hn.keeps, (Sum.inl (.string parts) :: ps).map Part.text, ?_, ?_⟩
          · simp [addStrings, partsText, List.flatMap]
          · refine List.forall₂_map_right_iff.mpr (List.forall₂_same.mpr fun q hq => barred_text ?_)
            rintro s rfl
            obtain ⟨l, r, hsplit⟩ := List.append_of_mem hq
            rw [hsplit] at hone
            simp [partsText, Part.text, Token.text, List.count_append] at hone
            omega
    · exact hplain hbar (bar_notMem_text hwf.1 (by simp) (by simp)) (by simp)

/-- The text does not end in a backslash that would take the next character with it. -/
def Settled (s : List Char) : Prop := (s.reverse.takeWhile (· = '\\')).length % 2 = 0

theorem settled_append {t : List Char} (ht : (t.takeWhile (· = '\\')).length % 2 = 0) (s : List Char) :
    Settled (t.reverse ++ s) ↔ Settled s := by
  rw [Settled, List.reverse_append, List.reverse_reverse, List.takeWhile_append, Settled]
  split
  · rename_i hlen
    rw [List.length_append, hlen]
    omega
  · exact Iff.rfl

theorem settled_cons {c : Char} (hc : c ≠ '\\') (s : List Char) : Settled (c :: s) ↔ Settled s :=
  settled_append (t := [c]) (by simp [hc]) s

theorem settled_pair (c : Char) (s : List Char) : Settled ('\\' :: c :: s) ↔ Settled s := by
  refine settled_append (t := [c, '\\']) ?_ s
  by_cases hc : c = '\\' <;> simp [hc]

theorem closing_settled {s : List Char} (hquote : '"' ∉ s) (h : Settled s) (t : List Char) :
    Json.closing (s ++ '"' :: t) = some (s.length + 1) := by
  induction s using Json.closing.induct with
  | case1 => rfl
  | case2 c s ih =>
    rw [List.mem_cons, List.mem_cons, not_or, not_or] at hquote
    rw [List.cons_append, List.cons_append, Json.closing, ih hquote.2.2 ((settled_pair c s).mp h)]
    simp
  | case3 s hcons => exact absurd List.mem_cons_self hquote
  | case4 c s hcons hc ih =>
    rw [List.mem_cons, not_or] at hquote
    have hne : c ≠ '\\' := by
      rintro rfl
      cases s with
      | nil => simp [Settled] at h
      | cons d s => exact hcons d s rfl rfl
    rw [List.cons_append, Json.closing, if_neg hc, ih hquote.2 ((settled_cons hne s).mp h)]
    · simp
    · intro d s' hd
      exact absurd hd hne

theorem quotation_match {s : List Char} (hquote : '"' ∉ s) (h : Settled s) (t : List Char) :
    Json.quotation.scan ('"' :: s ++ ['"'] ++ t) = .inr ('"' :: s ++ ['"']) :: Json.quotation.scan t := by
  refine Pattern.scan_match (u := s ++ ['"']) ?_
  rw [List.cons_append, List.append_assoc, List.singleton_append, Json.quotation,
    closing_settled hquote h]
  simp

theorem scan_parts {parts : List (List Char)} (hquote : ∀ s ∈ parts, '"' ∉ s)
    (h : ∀ s ∈ parts, Settled s) (t : List Char) :
    Json.quotation.scan (parts.flatMap (fun s => '"' :: s ++ ['"']) ++ t) =
      parts.map (fun s => .inr ('"' :: s ++ ['"'])) ++ Json.quotation.scan t := by
  induction parts with
  | nil => rfl
  | cons s parts ih =>
    rw [List.forall_mem_cons] at hquote h
    rw [List.flatMap_cons, List.append_assoc, quotation_match hquote.1 h.1, ih hquote.2 h.2]
    rfl

/-- Matches that follow each other make one atom of keys. -/
theorem addStrings_matches (hn : Numbered strings) (ms : List (List Char))
    (l : List (Char ⊕ List Char)) :
    ∃ v s strings', addStrings strings (ms.map .inr ++ l) =
        (v ++ (addStrings strings' l).1, (addStrings strings' l).2) ∧
      Keeps strings strings' ∧ Coded strings' v s ms.flatten ∧ (ms ≠ [] → v ≠ []) := by
  induction ms generalizing strings with
  | nil => exact ⟨[], [], strings, rfl, hn.keeps, .nil, fun h => absurd rfl h⟩
  | cons u ms ih =>
    obtain ⟨hadd, hlookup⟩ := hn.add (u.flatMap Json.escape)
    obtain ⟨v, s, strings', heq, hkeeps, hcoded, -⟩ := ih hadd.1
    refine ⟨stringKey strings.length ++ v, u.flatMap Json.escape ++ s, strings', ?_,
      hadd.trans hkeeps, .key (hkeeps.2 _ _ hlookup) hcoded, fun _ => by simp [stringKey]⟩
    rw [List.map_cons, List.cons_append, addStrings_inr]
    dsimp only
    rw [heq, List.append_assoc]

theorem quote_notMem_barred (h : Barred strings p u) (hwf : p.Wf)
    (hstring : ∀ parts, p ≠ .inl (.string parts)) : '"' ∉ u := by
  rcases p with t | c
  · cases t with
    | string parts => exact absurd rfl (hstring parts)
    | opening | closing =>
      obtain rfl := h
      decide
    | atom s =>
      obtain rfl := h
      exact fun hmem => plain_ne (hwf.2 _ hmem) (d := '"') (by decide) rfl
    | quoted s =>
      obtain ⟨n, rfl, -⟩ := h
      exact fun hmem => absurd (stringKey_wordChars n _ hmem) (by decide)
  · obtain rfl := h
    intro hmem
    obtain rfl : '"' = c := by simpa [Part.text] using hmem
    exact absurd (show '"' ∈ Items.blanks from hwf) (by decide)

theorem stands_barred (h : Barred strings p u) (hwf : p.Wf)
    (hstring : ∀ parts, p ≠ .inl (.string parts)) : Stands strings p u := by
  rcases p with t | c
  · cases t with
    | string parts => exact absurd rfl (hstring parts)
    | opening | closing => exact h
    | atom s =>
      have hu : u = s := h
      rw [hu]
      exact ⟨hwf.1, s, Coded.plains hwf.2⟩
    | quoted s =>
      obtain ⟨n, rfl, hn⟩ := h
      have hcoded := Coded.key hn .nil
      rw [List.append_nil, List.append_nil, List.append_nil] at hcoded
      exact ⟨by simp [stringKey], _, hcoded⟩
  · exact h

theorem addStrings_quotations {us : List (List Char)} (h : List.Forall₂ (Barred strings) ps us)
    (hwf : ∀ p ∈ ps, p.Wf) (hsettled : ∀ parts, .inl (.string parts) ∈ ps → ∀ s ∈ parts, Settled s)
    (hn : Numbered strings) :
    let result := addStrings strings (Json.quotation.scan us.flatten)
    Keeps strings result.2 ∧
      ∃ vs, result.1 = vs.flatten ∧ List.Forall₂ (Stands result.2) ps vs := by
  induction ps generalizing strings us with
  | nil =>
    cases h
    exact ⟨hn.keeps, [], rfl, .nil⟩
  | cons p ps ih =>
    obtain ⟨u, us, hp, hps, rfl⟩ := List.forall₂_cons_left_iff.mp h
    rw [List.forall_mem_cons] at hwf
    have hsettled' := fun parts hparts => hsettled parts (List.mem_cons_of_mem _ hparts)
    rw [List.flatten_cons]
    by_cases hstring : ∃ parts, p = .inl (.string parts)
    · obtain ⟨parts, rfl⟩ := hstring
      have hu : u = parts.flatMap fun s => '"' :: s ++ ['"'] := hp
      have hscan := scan_parts hwf.1.2 (hsettled parts List.mem_cons_self) us.flatten
      obtain ⟨v, s, strings', heq, hkeeps, hcoded, hne⟩ := addStrings_matches hn
        (parts.map fun s => '"' :: s ++ ['"']) (Json.quotation.scan us.flatten)
      obtain ⟨hkeeps', vs, hvs, hstands⟩ := ih
        (hps.imp fun _ _ hb => hb.mono hkeeps) hwf.2 hsettled' hkeeps.1
      rw [List.map_map] at heq
      rw [hu, hscan]
      refine ⟨?_, v :: vs, ?_, .cons ?_ ?_⟩
      · exact heq ▸ hkeeps.trans hkeeps'
      · rw [List.flatten_cons, ← hvs]
        exact congrArg Prod.fst heq
      · have hatom : Stands strings' (.inl (.string parts)) v := by
          refine ⟨hne (by simpa using hwf.1.1), s, ?_⟩
          rwa [← List.flatMap_def] at hcoded
        exact heq ▸ hatom.mono hkeeps'
      · exact heq ▸ hstands
    · have hplain : ∀ parts, p ≠ .inl (.string parts) := fun parts he => hstring ⟨parts, he⟩
      have hquote := quote_notMem_barred hp hwf.1 hplain
      obtain ⟨hkeeps, vs, hvs, hstands⟩ := ih hps hwf.2 hsettled' hn
      rw [Json.quotation_starts.scan_append fun c hc he => hquote (he ▸ hc), addStrings_inl]
      refine ⟨hkeeps, u :: vs, by rw [List.flatten_cons, ← hvs], .cons ?_ hstands⟩
      exact (stands_barred hp hwf.1 hplain).mono hkeeps

end Keeping

section Read

variable {ps : List Part}

/-- `smt2json` after the comments are gone. -/
def readParts (s : List Char) : Option Json :=
  let (s, strings) := addStrings [] (Patterns.bars.scan s)
  let (s, strings) := addStrings strings (Json.quotation.scan s)
  (lookupStrings strings (Patterns.key.scan (punctuate s))).bind Json.loads

theorem smt2json_eq (smt : List Char) :
    smt2json smt = readParts (Patterns.comment.sub (fun _ => []) ('(' :: smt ++ [')'])) := rfl

/-- What has no comments reads as the tokens, with those that touch in one. -/
theorem readParts_iff (hwf : ∀ p ∈ ps, p.Wf) (hbar : LastBar ps)
    (hsettled : ∀ parts, .inl (.string parts) ∈ ps → ∀ s ∈ parts, Settled s) (v : Json) :
    readParts (partsText (.inl .opening :: ps)) = some v ↔
      merged (.inl .opening :: ps) = v.tokens := by
  have hwf' : ∀ p ∈ Sum.inl Token.opening :: ps, Part.Wf p :=
    List.forall_mem_cons.mpr ⟨trivial, hwf⟩
  have hbar' : LastBar (.inl .opening :: ps) := hbar
  obtain ⟨hkeeps, us, hus, hbarred⟩ := addStrings_bars hwf' hbar' (show Numbered [] from rfl)
  have hsettled' : ∀ parts, .inl (.string parts) ∈ (.inl .opening :: ps : List Part) →
      ∀ s ∈ parts, Settled s := by simpa using hsettled
  obtain ⟨-, vs, hvs, hstands⟩ := addStrings_quotations hbarred hwf' hsettled' hkeeps.1
  obtain ⟨v₀, vs, hopen, hrest, rfl⟩ := List.forall₂_cons_left_iff.mp hstands
  obtain rfl : v₀ = ['('] := hopen
  obtain ⟨bl, items, htext, hbl, hitems, hmarks⟩ := (gather hrest hwf).flush
  have hregular :=
    hitems.cons (l := .opening) trivial hbl fun h => absurd h (by simp [Items.isWord])
  have hread := Items.loads_text hregular.good hregular.comma hregular.chain hregular.blank v
  have hraw : Items.text Lexeme.raw (⟨.opening, false, bl⟩ :: items) = (['('] :: vs).flatten := by
    rw [List.flatten_cons, htext]
    simp [Item.text, Lexeme.raw]
  rw [hraw, List.map_cons, hmarks, ← hvs, ← hus] at hread
  exact hread

end Read

end Smtlib

end Smts.Server
