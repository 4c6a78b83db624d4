import Smts.Server.Smtlib

namespace Smts.Server

open Smts.Lib

namespace Smtlib

mutual

def atoms : Json → List String
  | .str s => [s]
  | .arr l => listAtoms l

def listAtoms : List Json → List String
  | [] => []
  | v :: l => atoms v ++ listAtoms l

end

mutual

/-- What `json2smt` prints, as tokens and white space. -/
def parts : Json → List Part
  | .str s => [.inl (.atom s.toList)]
  | .arr l => .inl .opening :: listParts ' ' l ++ [.inl .closing]

def listParts (sep : Char) : List Json → List Part
  | [] => []
  | [v] => parts v
  | v :: w :: l => parts v ++ .inr sep :: listParts sep (w :: l)

end

mutual

theorem partsText_parts : ∀ v : Json, partsText (parts v) = smtText v
  | .str s => by simp [parts, Token.text, smtText]
  | .arr l => by simp [parts, Token.text, smtText, partsText_words l]

theorem partsText_words : ∀ l : List Json, partsText (listParts ' ' l) = smtWords l
  | [] => rfl
  | [v] => partsText_parts v
  | v :: w :: l => by simp [listParts, smtWords, partsText_parts v, partsText_words (w :: l)]

end

theorem partsText_json2smt (l : List Json) : partsText (listParts '\n' l) = json2smt l := by
  induction l with
  | nil => rfl
  | cons v l ih =>
    cases l with
    | nil => exact partsText_parts v
    | cons w l => simp [listParts, json2smt, partsText_parts v, ih]

mutual

theorem tokens_parts : ∀ v : Json, tokens (parts v) = v.tokens
  | .str s => by simp [parts, Token.mark, Token.text, Json.tokens]
  | .arr l => by
    rw [parts, Json.tokens, tokens_append, tokens_token, tokens_listParts ' ' l]
    rfl

theorem tokens_listParts : ∀ (sep : Char) (l : List Json),
    tokens (listParts sep l) = Json.listTokens l
  | _, [] => rfl
  | _, [v] => by rw [listParts, tokens_parts v, Json.listTokens, Json.listTokens, List.append_nil]
  | sep, v :: w :: l => by
    rw [listParts, tokens_append, tokens_blank, tokens_parts v, tokens_listParts sep (w :: l)]
    rfl

end

/-- The atoms that may be printed as they are. -/
def Printable (s : String) : Prop := s ≠ "" ∧ ∀ c ∈ s.toList, plain c

/-- Parts that are printed atoms, brackets and white space. -/
def Printed (p : Part) : Prop := p.Wf ∧ (∀ s, p ≠ .inl (.quoted s)) ∧ ∀ l, p ≠ .inl (.string l)

mutual

theorem printed_parts : ∀ v : Json, (∀ s ∈ atoms v, Printable s) → ∀ p ∈ parts v, Printed p
  | .str s, h => by
    obtain ⟨hne, hplain⟩ := h s List.mem_cons_self
    rw [parts, List.forall_mem_singleton]
    exact ⟨⟨by simpa using hne, hplain⟩, by simp, by simp⟩
  | .arr l, h => by
    have hlist := printed_listParts ' ' l (by decide) h
    rw [parts, List.forall_mem_append, List.forall_mem_cons, List.forall_mem_singleton]
    exact ⟨⟨⟨trivial, by simp, by simp⟩, hlist⟩, trivial, by simp, by simp⟩

theorem printed_listParts : ∀ (sep : Char) (l : List Json), sep ∈ Items.blanks →
    (∀ s ∈ listAtoms l, Printable s) → ∀ p ∈ listParts sep l, Printed p
  | _, [], _, _ => by simp [listParts]
  | _, [v], _, h => by
    rw [listAtoms, listAtoms, List.append_nil] at h
    exact printed_parts v h
  | sep, v :: w :: l, hsep, h => by
    rw [listAtoms, List.forall_mem_append] at h
    rw [listParts, List.forall_mem_append, List.forall_mem_cons]
    exact ⟨printed_parts v h.1, ⟨hsep, by simp, by simp⟩, printed_listParts sep (w :: l) hsep h.2⟩

end

theorem Spaced.append {ps qs : List Part} (hp : Spaced ps) (hq : Spaced qs)
    (h : ∀ q ∈ qs.head?, q.isAtom = false) : Spaced (ps ++ qs) :=
  List.IsChain.append hp hq fun _ _ q hq _ => h q hq

theorem Spaced.cons {p : Part} {ps : List Part} (hp : p.isAtom = false) (h : Spaced ps) :
    Spaced (p :: ps) :=
  spaced_cons.mpr ⟨fun _ _ hatom => absurd hatom (by simp [hp]), h⟩

mutual

theorem spaced_parts : ∀ v : Json, Spaced (parts v)
  | .str s => .singleton _
  | .arr l => by
    rw [parts, List.cons_append]
    exact .cons rfl
      (Spaced.append (spaced_listParts ' ' l) (.singleton _) (by simp [Part.isAtom, Token.isAtom]))

theorem spaced_listParts : ∀ (sep : Char) (l : List Json), Spaced (listParts sep l)
  | _, [] => .nil
  | _, [v] => spaced_parts v
  | sep, v :: w :: l =>
    (spaced_parts v).append (.cons rfl (spaced_listParts sep (w :: l))) (by simp [Part.isAtom])

end

theorem Printed.semicolon_notMem {p : Part} (h : Printed p) : ';' ∉ p.text := by
  obtain ⟨hwf, hquoted, hstring⟩ := h
  rcases p with t | c
  · cases t with
    | quoted s => exact absurd rfl (hquoted s)
    | string l => exact absurd rfl (hstring l)
    | opening | closing => decide
    | atom s => exact fun hmem => plain_ne (hwf.2 _ hmem) (d := ';') (by decide) rfl
  · intro hmem
    obtain rfl : ';' = c := by simpa [Part.text] using hmem
    exact absurd (show ';' ∈ Items.blanks from hwf) (by decide)

theorem lastBar_printed {ps : List Part} (h : ∀ p ∈ ps, Printed p) : LastBar ps := by
  induction ps with
  | nil => trivial
  | cons p ps ih =>
    rw [List.forall_mem_cons] at h
    rcases p with t | c
    · cases t with
      | string l => exact absurd rfl (h.1.2.2 l)
      | opening | closing | atom | quoted => exact ih h.2
    · exact ih h.2

theorem comment_starts : Patterns.comment.Starts (· = ';') := by
  intro c s hc
  rw [Patterns.comment]
  exact fun _ hcons => hc (List.cons.inj hcons).1

theorem read_printed (l : List Json) (h : ∀ s ∈ listAtoms l, Printable s) :
    smt2json (json2smt l) = some (.arr l) := by
  set ps := listParts '\n' l ++ [.inl .closing] with hps
  have hprinted : ∀ p ∈ ps, Printed p := by
    rw [hps, List.forall_mem_append, List.forall_mem_singleton]
    exact ⟨printed_listParts '\n' l (by simp [Items.blanks]) h, trivial, by simp, by simp⟩
  have hclean : ∀ c ∈ '(' :: json2smt l ++ [')'], c ≠ ';' := by
    rw [← partsText_json2smt, List.cons_append, List.forall_mem_cons, List.forall_mem_append]
    refine ⟨by decide, fun c hc he => ?_, by simp⟩
    obtain ⟨p, hp, hmem⟩ := List.mem_flatMap.mp hc
    exact (hprinted p (List.mem_append_left _ hp)).semicolon_notMem (he ▸ hmem)
  have htext : partsText (.inl .opening :: ps) = '(' :: json2smt l ++ [')'] := by
    simp [hps, Token.text, partsText_json2smt]
  have hspaced : Spaced (.inl .opening :: ps) :=
    .cons rfl
      (Spaced.append (spaced_listParts '\n' l) (.singleton _) (by simp [Part.isAtom, Token.isAtom]))
  have hwf : ∀ p ∈ ps, p.Wf := fun p hp => (hprinted p hp).1
  have hwf' : ∀ p ∈ (.inl .opening :: ps : List Part), p.Wf :=
    List.forall_mem_cons.mpr ⟨trivial, hwf⟩
  have hstrip := comment_starts.sub_append (r := fun _ => []) (s := []) hclean
  rw [List.append_nil, Pattern.sub_nil, List.append_nil] at hstrip
  rw [smt2json_eq, hstrip, ← htext,
    readParts_iff hwf (lastBar_printed hprinted) fun l hl => absurd rfl ((hprinted _ hl).2.2 l),
    (merged_eq_tokens hwf').mpr hspaced, hps, tokens_token,
    tokens_append, tokens_listParts]
  rfl

end Smtlib

open Smtlib

/-- What is printed reads as what was printed. -/
theorem smt2json_json2smt (l : List Json)
    (h : ∀ s ∈ listAtoms l, s ≠ "" ∧ ∀ c ∈ s.toList, plain c) :
    smt2json (json2smt l) = some (.arr l) :=
  read_printed l h

theorem smt2json_json2smt_nested :
    smt2json (json2smt [.arr [.str "rule", .arr []], .str "q,", .arr [.arr [.arr [], .str "x"], .arr []]]) =
      some (.arr [.arr [.str "rule", .arr []], .str "q,", .arr [.arr [.arr [], .str "x"], .arr []]]) :=
  smt2json_json2smt _ (by simp [listAtoms, atoms, plain, isSpace])

end Smts.Server
