import Smts.Server.Printing

namespace Smts.Server

open Smts.Lib
open Smts.Lib.Json (Mark)

namespace Smtlib

/-- A token, a character of white space, or a comment, which ends at the end of its line or, if it
is the last piece, at the end of the text. -/
inductive Piece
  | token (t : Token)
  | blank (c : Char)
  | comment (s : List Char) (ended : Bool)

def Piece.text : Piece → List Char
  | .token t => t.text
  | .blank c => [c]
  | .comment s ended => ';' :: s ++ if ended then ['\n'] else []

def piecesText (ps : List Piece) : List Char := ps.flatMap Piece.text

def Piece.Wf : Piece → Prop
  | .token t => t.Wf
  | .blank c => c ∈ Items.blanks
  | .comment s _ => '\n' ∉ s

/-- These may follow each other: simple symbols would be one symbol otherwise, strings one string
with a quote in it. -/
def Piece.Fits : Piece → Piece → Prop
  | .token (.atom _), .token (.atom _) => False
  | .token (.string _), .token (.string _) => False
  | .comment _ false, _ => False
  | _, _ => True

/-- A text in the lexical grammar. -/
structure Lexed (ps : List Piece) : Prop where
  wf : ∀ p ∈ ps, p.Wf
  fits : List.IsChain Piece.Fits ps

/-- The text without its comments. -/
def code : List Piece → List Part
  | [] => []
  | .token t :: ps => .inl t :: code ps
  | .blank c :: ps => .inr c :: code ps
  | .comment _ true :: ps => .inr '\n' :: code ps
  | .comment _ false :: ps => code ps

def Piece.unended : Piece → Bool
  | .comment _ false => true
  | _ => false

/-- The text does not end within a comment. -/
def Ended (ps : List Piece) : Prop := ps.getLast?.any Piece.unended = false

instance : DecidablePred Ended := fun _ => inferInstanceAs (Decidable (_ = false))

/-- No comment begins within a token. -/
def Quiet (ps : List Piece) : Prop := ∀ t, .token t ∈ ps → ';' ∉ t.text

/-- No string literal has a part that ends in an odd number of backslashes. -/
def SettledStrings (ps : List Piece) : Prop :=
  ∀ parts, .token (.string parts) ∈ ps → ∀ s ∈ parts, Settled s

variable {ps : List Piece} {p : Piece}

theorem comment_match {s : List Char} (h : '\n' ∉ s) {t : List Char}
    (ht : ∀ c ∈ t.head?, c = '\n') : Patterns.comment (';' :: s ++ t) = some (s.length + 1) := by
  have htake : (s ++ t).takeWhile (· ≠ '\n') = s := by
    refine takeWhile_run (fun c hc => ?_) fun c hc => by simp [ht c hc]
    simp only [decide_eq_true_eq]
    rintro rfl
    exact h hc
  rw [List.cons_append, Patterns.comment, htake]

theorem wf_code (h : ∀ p ∈ ps, p.Wf) : ∀ p ∈ code ps, p.Wf := by
  induction ps with
  | nil => simp [code]
  | cons p ps ih =>
    rw [List.forall_mem_cons] at h
    have hrest := ih h.2
    cases p with
    | token t => exact List.forall_mem_cons.mpr ⟨h.1, hrest⟩
    | blank c => exact List.forall_mem_cons.mpr ⟨h.1, hrest⟩
    | comment s ended =>
      cases ended with
      | true => exact List.forall_mem_cons.mpr ⟨show '\n' ∈ Items.blanks by decide, hrest⟩
      | false => exact hrest

theorem mem_code {t : Token} (h : .inl t ∈ code ps) : .token t ∈ ps := by
  induction ps with
  | nil => cases h
  | cons p ps ih =>
    cases p with
    | token u =>
      rcases List.mem_cons.mp h with he | h
      · cases he
        exact List.mem_cons_self
      · exact List.mem_cons_of_mem _ (ih h)
    | blank c =>
      rcases List.mem_cons.mp h with he | h
      · cases he
      · exact List.mem_cons_of_mem _ (ih h)
    | comment s ended =>
      cases ended with
      | true =>
        rcases List.mem_cons.mp h with he | h
        · cases he
        · exact List.mem_cons_of_mem _ (ih h)
      | false => exact List.mem_cons_of_mem _ (ih h)

theorem semicolon_notMem_blank {c : Char} (h : c ∈ Items.blanks) : c ≠ ';' := by
  rintro rfl
  exact absurd h (by decide)

theorem ended_cons (h : p.unended = false) : Ended (p :: ps) ↔ Ended ps := by
  cases ps with
  | nil => simp [Ended, h]
  | cons q ps => simp [Ended, List.getLast?_cons_cons]

theorem bracket_ended (h : p.unended = false) :
    (if Ended (p :: ps) then [')'] else []) = if Ended ps then [')'] else [] :=
  if_congr (ended_cons h) rfl rfl

theorem piecesText_cons (p : Piece) (ps : List Piece) :
    piecesText (p :: ps) = p.text ++ piecesText ps := rfl

/-- The comments go; one at the end takes the last bracket along. -/
theorem sub_comment (h : Lexed ps) (hquiet : Quiet ps) :
    Patterns.comment.sub (fun _ => []) (piecesText ps ++ [')']) =
      partsText (code ps) ++ if Ended ps then [')'] else [] := by
  induction ps with
  | nil => rfl
  | cons p ps ih =>
    have hwf := List.forall_mem_cons.mp h.wf
    have hrest := ih ⟨hwf.2, h.fits.of_cons⟩ fun t ht => hquiet t (List.mem_cons_of_mem _ ht)
    cases p with
    | token t =>
      have ht : ∀ c ∈ t.text, c ≠ ';' := fun c hc he => hquiet t List.mem_cons_self (he ▸ hc)
      rw [piecesText_cons, Piece.text, List.append_assoc, comment_starts.sub_append ht, hrest, code,
        partsText_token, List.append_assoc, bracket_ended rfl]
    | blank c =>
      rw [piecesText_cons, Piece.text, List.append_assoc, List.singleton_append,
        comment_starts.sub_cons (semicolon_notMem_blank hwf.1), hrest, code, partsText_blank,
        List.cons_append, bracket_ended rfl]
    | comment s ended =>
      have hs : '\n' ∉ s := hwf.1
      cases ended with
      | true =>
        have hmatch := comment_match hs (t := '\n' :: (piecesText ps ++ [')'])) (by simp)
        have hshape : piecesText (.comment s true :: ps) ++ [')'] =
            ';' :: s ++ '\n' :: (piecesText ps ++ [')']) := by
          simp [piecesText_cons, Piece.text]
        rw [hshape, Pattern.sub_match hmatch, comment_starts.sub_cons (by decide), hrest, code,
          partsText_blank, bracket_ended rfl]
        rfl
      | false =>
        cases ps with
        | cons q ps => exact absurd (List.isChain_cons_cons.mp h.fits).1 (by simp [Piece.Fits])
        | nil =>
          have hline : '\n' ∉ s ++ [')'] := by simpa using hs
          have hmatch := comment_match hline (t := []) (by simp)
          have hshape : piecesText [.comment s false] ++ [')'] = ';' :: (s ++ [')']) ++ [] := by
            simp [piecesText, Piece.text]
          rw [hshape, Pattern.sub_match hmatch]
          rfl

theorem lastBar_closing {ps : List Part} (h : LastBar ps) : LastBar (ps ++ [.inl .closing]) := by
  induction ps with
  | nil => trivial
  | cons p ps ih =>
    rcases p with t | c
    · cases t with
      | string parts =>
        obtain ⟨hlast, h⟩ := h
        refine ⟨hlast.imp_right fun hone => ?_, ih h⟩
        have hsplit : partsText (.inl (.string parts) :: (ps ++ [.inl .closing])) =
            partsText (.inl (.string parts) :: ps) ++ [')'] := by
          rw [← List.cons_append, partsText_append]
          rfl
        exact hsplit ▸ (List.count_append.trans (by rw [hone]; rfl))
      | opening | closing | atom | quoted => exact ih h
    · exact ih h

theorem spaced_closing {ps : List Part} :
    Spaced (.inl .opening :: (ps ++ [.inl .closing])) ↔ Spaced ps := by
  refine ⟨fun h => (spaced_cons.mp h).2.left_of_append, fun h => ?_⟩
  exact .cons rfl (h.append (.singleton _) (by simp [Part.isAtom, Token.isAtom]))

/-- The texts that are read as they should be. -/
structure Faithful (ps : List Piece) : Prop where
  quiet : Quiet ps
  lastBar : LastBar (code ps)
  settled : SettledStrings ps
  spaced : Spaced (code ps)
  ended : Ended ps

end Smtlib

open Smtlib

/-- Without a stray comment, bar or backslash in them, the tokens are read back as long as atoms
do not touch and the last line, if it is a comment, has an end. -/
theorem smt2json_iff {ps : List Piece} (h : Lexed ps) (hquiet : Smtlib.Quiet ps)
    (hbar : LastBar (code ps)) (hsettled : SettledStrings ps) {l : List Json}
    (hl : tokens (code ps) = Json.listTokens l) :
    smt2json (piecesText ps) = some (.arr l) ↔ Spaced (code ps) ∧ Ended ps := by
  have hsub : Patterns.comment.sub (fun _ => []) ('(' :: piecesText ps ++ [')']) =
      '(' :: partsText (code ps) ++ if Ended ps then [')'] else [] := by
    rw [List.cons_append, comment_starts.sub_cons (by decide), sub_comment h hquiet]
    rfl
  have hwf := wf_code h.wf
  have hsettled' : ∀ parts, .inl (.string parts) ∈ code ps → ∀ s ∈ parts, Smtlib.Settled s :=
    fun parts hparts => hsettled parts (mem_code hparts)
  rw [smt2json_eq, hsub]
  by_cases hended : Ended ps
  · have htext : '(' :: partsText (code ps) ++ (if Ended ps then [')'] else []) =
        partsText (.inl .opening :: (code ps ++ [.inl .closing])) := by
      simp [hended, Token.text]
    have hwf' : ∀ p ∈ code ps ++ [.inl .closing], p.Wf := by
      rw [List.forall_mem_append, List.forall_mem_singleton]
      exact ⟨hwf, trivial⟩
    have hwf'' : ∀ p ∈ (.inl .opening :: (code ps ++ [.inl .closing]) : List Part), p.Wf :=
      List.forall_mem_cons.mpr ⟨trivial, hwf'⟩
    have htokens :
        (Json.arr l).tokens = tokens (.inl .opening :: (code ps ++ [.inl .closing])) := by
      rw [tokens_token, tokens_append, hl]
      rfl
    rw [htext, readParts_iff hwf' (lastBar_closing hbar) (by simpa using hsettled'), htokens,
      merged_eq_tokens hwf'', spaced_closing]
    exact (and_iff_left hended).symm
  · have htext : '(' :: partsText (code ps) ++ (if Ended ps then [')'] else []) =
        partsText (.inl .opening :: code ps) := by
      simp [hended, Token.text]
    rw [htext, readParts_iff hwf hbar hsettled']
    refine iff_of_false (fun he => ?_) fun he => hended he.2
    have hlength := (merged_length (List.forall_mem_cons.mpr ⟨trivial, hwf⟩ :
      ∀ p ∈ (.inl .opening :: code ps : List Part), p.Wf)).1
    rw [he, tokens_token, hl, Json.tokens] at hlength
    simp at hlength

/-- Faithful texts are read as the nested list of their tokens; of those whose tokens hold no stray
comment, bar or backslash, only these are. -/
theorem smt2json_reads (ps : List Piece) (h : Lexed ps) (l : List Json)
    (hl : tokens (code ps) = Json.listTokens l) :
    (Faithful ps → smt2json (piecesText ps) = some (.arr l)) ∧
      (Smtlib.Quiet ps → LastBar (code ps) → SettledStrings ps →
        smt2json (piecesText ps) = some (.arr l) → Faithful ps) := by
  refine ⟨fun hf => ?_, fun hquiet hbar hsettled hread => ?_⟩
  · exact (smt2json_iff h hf.quiet hf.lastBar hf.settled hl).mpr ⟨hf.spaced, hf.ended⟩
  · obtain ⟨hspaced, hended⟩ := (smt2json_iff h hquiet hbar hsettled hl).mp hread
    exact ⟨hquiet, hbar, hsettled, hspaced, hended⟩

/-- `(rule |a b|) ; done` and a line break. -/
def commented : List Piece :=
  [.token .opening, .token (.atom "rule".toList), .blank ' ', .token (.quoted "a b".toList),
    .token .closing, .blank ' ', .comment " done".toList true]

theorem smt2json_reads_commented :
    smt2json (piecesText commented) = some (.arr [.arr [.str "rule", .str "|a b|"]]) := by
  refine (smt2json_reads commented ⟨?_, ?_⟩ [.arr [.str "rule", .str "|a b|"]] ?_).1
    ⟨?_, ?_, ?_, ?_, ?_⟩
  · intro p hp
    simp only [commented, List.mem_cons, List.not_mem_nil, or_false] at hp
    rcases hp with rfl | rfl | rfl | rfl | rfl | rfl | rfl
    · trivial
    · exact ⟨by decide, by simp [plain, isSpace]⟩
    · exact List.mem_cons_self
    · exact (by decide : '|' ∉ "a b".toList)
    · trivial
    · exact List.mem_cons_self
    · exact (by decide : '\n' ∉ " done".toList)
  · simp [commented, Piece.Fits]
  · decide +kernel
  · intro t ht
    simp only [commented, List.mem_cons, Piece.token.injEq, reduceCtorEq, List.not_mem_nil, or_false,
      false_or] at ht
    rcases ht with rfl | rfl | rfl | rfl <;> decide
  · simp [commented, code, LastBar]
  · intro parts hparts
    simp [commented] at hparts
  · simp [commented, code, Spaced, Part.isAtom, Token.isAtom]
  · decide

/-- A comment sign within a quoted symbol ends the line. -/
theorem smt2json_quoted :
    Lexed [.token (.quoted "a;b".toList)] ∧
      tokens (code [.token (.quoted "a;b".toList)]) = Json.listTokens [.str "|a;b|"] ∧
      smt2json (piecesText [.token (.quoted "a;b".toList)]) ≠ some (.arr [.str "|a;b|"]) := by
  refine ⟨⟨?_, .singleton _⟩, by decide +kernel, by decide +kernel⟩
  exact List.forall_mem_singleton.mpr (by decide : '|' ∉ "a;b".toList)

end Smts.Server
