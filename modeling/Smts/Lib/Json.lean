import Mathlib.Data.List.Basic

namespace Smts.Lib

/-- A value that is made of strings and lists. -/
inductive Json
  | str (s : String)
  | arr (l : List Json)

namespace Json

mutual

def same : Json → Json → Bool
  | .str s, .str t => s = t
  | .arr l, .arr m => sameList l m
  | .str _, .arr _ => false
  | .arr _, .str _ => false

def sameList : List Json → List Json → Bool
  | [], [] => true
  | v :: l, w :: m => same v w && sameList l m
  | [], _ :: _ => false
  | _ :: _, [] => false

end

mutual

theorem same_iff : ∀ v w, same v w = true ↔ v = w
  | .str s, .str t => by simp [same]
  | .arr l, .arr m => by simp [same, sameList_iff l m]
  | .str _, .arr _ => by simp [same]
  | .arr _, .str _ => by simp [same]

theorem sameList_iff : ∀ l m, sameList l m = true ↔ l = m
  | [], [] => by simp [sameList]
  | v :: l, w :: m => by simp [sameList, same_iff v w, sameList_iff l m]
  | [], _ :: _ => by simp [sameList]
  | _ :: _, [] => by simp [sameList]

end

instance : DecidableEq Json := fun v w => decidable_of_iff _ (same_iff v w)

inductive Mark
  | opening
  | closing
  | comma
  | str (s : String)
  deriving DecidableEq

mutual

def marks : Json → List Mark
  | .str s => [.str s]
  | .arr l => .opening :: listMarks l ++ [.closing]

def listMarks : List Json → List Mark
  | [] => []
  | [v] => v.marks
  | v :: w :: l => v.marks ++ .comma :: listMarks (w :: l)

end

section Read

/-- What may come next: a value; a value or the end of the list just opened; a comma or the end
of the list. -/
inductive Expecting
  | value
  | element
  | separator

/-- A reader keeps the lists that are open, innermost first and each from its last element
on. -/
inductive Reader
  | reading (e : Expecting) (stack : List (List Json))
  | done (v : Json)

def Reader.put (v : Json) : List (List Json) → Reader
  | [] => .done v
  | l :: stack => .reading .separator ((v :: l) :: stack)

def Reader.step : Reader → Mark → Option Reader
  | .reading .separator _, .str _ => none
  | .reading _ stack, .str s => some (put (.str s) stack)
  | .reading .separator _, .opening => none
  | .reading _ stack, .opening => some (.reading .element ([] :: stack))
  | .reading .value _, .closing => none
  | .reading _ (l :: stack), .closing => some (put (.arr l.reverse) stack)
  | .reading .separator stack, .comma => some (.reading .value stack)
  | _, _ => none

def Reader.result : Reader → Option Json
  | .done v => some v
  | .reading _ _ => none

def read (ms : List Mark) : Option Json :=
  (ms.foldlM Reader.step (.reading .value [])).bind Reader.result

end Read

theorem listMarks_concat (l : List Json) (v : Json) :
    listMarks (l ++ [v]) = listMarks l ++ (if l = [] then [] else [.comma]) ++ v.marks := by
  induction l with
  | nil => simp [listMarks]
  | cons w l ih =>
    cases l with
    | nil => simp [listMarks]
    | cons x l =>
      rw [List.cons_append, List.cons_append, listMarks, ← List.cons_append, ih, listMarks]
      simp

mutual

theorem step_marks : ∀ (v : Json) (e : Expecting) (stack : List (List Json)), e ≠ .separator →
    v.marks.foldlM Reader.step (.reading e stack) = some (Reader.put v stack)
  | .str s, e, stack, he => by
    cases e with
    | separator => exact absurd rfl he
    | value => rfl
    | element => rfl
  | .arr l, e, stack, he => by
    have hopen :
        Reader.step (.reading e stack) .opening = some (.reading .element ([] :: stack)) := by
      cases e with
      | separator => exact absurd rfl he
      | value => rfl
      | element => rfl
    rw [marks, List.cons_append, List.foldlM_cons, hopen]
    simp only [Option.bind_eq_bind, Option.bind_some, List.foldlM_append]
    by_cases hl : l = []
    · rw [hl]
      rfl
    · rw [step_listMarks l .element [] stack (by simp) hl]
      simp [Reader.step]

theorem step_listMarks : ∀ (l : List Json) (e : Expecting) (done : List Json)
    (stack : List (List Json)), e ≠ .separator → l ≠ [] →
    (listMarks l).foldlM Reader.step (.reading e (done :: stack)) =
      some (.reading .separator ((l.reverse ++ done) :: stack))
  | [], _, _, _, _, hl => absurd rfl hl
  | [v], e, done, stack, he, _ => by
    rw [listMarks, step_marks v e (done :: stack) he]
    rfl
  | v :: w :: l, e, done, stack, he, _ => by
    rw [listMarks, List.foldlM_append, step_marks v e (done :: stack) he]
    have hrest := step_listMarks (w :: l) .value (v :: done) stack (by simp) (by simp)
    simp only [Option.bind_eq_bind, Option.bind_some, Reader.put, List.foldlM_cons, Reader.step,
      hrest]
    simp

end

/-- An open list, up to the place of its next element. -/
def pending (l : List Json) : List Mark :=
  .opening :: listMarks l.reverse ++ if l = [] then [] else [.comma]

def outer : List (List Json) → List Mark
  | [] => []
  | l :: stack => outer stack ++ pending l

/-- What has been read. -/
def Reader.written : Reader → List Mark
  | .done v => v.marks
  | .reading .separator (l :: stack) => outer stack ++ .opening :: listMarks l.reverse
  | .reading _ stack => outer stack

def Reader.Regular : Reader → Prop
  | .reading .element (l :: _) => l = []
  | .reading .element [] => False
  | .reading .value (l :: _) => l ≠ []
  | .reading .separator (l :: _) => l ≠ []
  | .reading .separator [] => False
  | _ => True

theorem Reader.put_regular (v : Json) (stack : List (List Json)) : (put v stack).Regular := by
  cases stack with
  | nil => trivial
  | cons l stack => exact List.cons_ne_nil v l

theorem Reader.written_put (v : Json) (stack : List (List Json)) :
    (put v stack).written = outer stack ++ v.marks := by
  cases stack with
  | nil => rfl
  | cons l stack => simp [put, written, outer, pending, listMarks_concat]

theorem Reader.step_written {r r' : Reader} {m : Mark} (hr : r.Regular) (h : r.step m = some r') :
    r'.Regular ∧ r'.written = r.written ++ [m] := by
  cases r with
  | done v => cases h
  | reading e stack =>
    cases m with
    | str s =>
      cases e with
      | separator => cases h
      | value | element =>
        cases h
        exact ⟨put_regular _ _, written_put _ _⟩
    | opening =>
      cases e with
      | separator => cases h
      | value | element =>
        cases h
        exact ⟨rfl, rfl⟩
    | comma =>
      cases e with
      | value | element => cases h
      | separator =>
        cases stack with
        | nil => exact hr.elim
        | cons l stack =>
          cases h
          exact ⟨hr, by simp [written, outer, pending, (show l ≠ [] from hr)]⟩
    | closing =>
      cases stack with
      | nil => cases e <;> cases h
      | cons l stack =>
        cases e with
        | value => cases h
        | element =>
          cases h
          obtain rfl : l = [] := hr
          refine ⟨put_regular _ _, ?_⟩
          rw [written_put]
          simp [written, outer, pending, marks, listMarks]
        | separator =>
          cases h
          refine ⟨put_regular _ _, ?_⟩
          rw [written_put]
          simp [written, marks]

theorem Reader.foldlM_written {ms : List Mark} {r r' : Reader} (hr : r.Regular)
    (h : ms.foldlM step r = some r') : r'.Regular ∧ r'.written = r.written ++ ms := by
  induction ms generalizing r with
  | nil =>
    cases h
    exact ⟨hr, by simp⟩
  | cons m ms ih =>
    rw [List.foldlM_cons] at h
    obtain ⟨u, hu, h⟩ := Option.bind_eq_some_iff.mp h
    obtain ⟨hregular, hwritten⟩ := step_written hr hu
    obtain ⟨hregular', hwritten'⟩ := ih hregular h
    exact ⟨hregular', by rw [hwritten', hwritten, List.append_assoc, List.singleton_append]⟩

theorem read_iff {ms : List Mark} {v : Json} : read ms = some v ↔ ms = v.marks := by
  refine ⟨fun h => ?_, fun h => ?_⟩
  · obtain ⟨r, hr, hv⟩ := Option.bind_eq_some_iff.mp h
    have hwritten := (Reader.foldlM_written (r := .reading .value []) trivial hr).2
    cases r with
    | reading e stack => cases hv
    | done w =>
      cases hv
      exact hwritten.symm
  · rw [read, h, step_marks v .value [] (by simp)]
    rfl

section Tokens

mutual

/-- The marks but for the commas. -/
def tokens : Json → List Mark
  | .str s => [.str s]
  | .arr l => .opening :: listTokens l ++ [.closing]

def listTokens : List Json → List Mark
  | [] => []
  | v :: l => v.tokens ++ listTokens l

end

/-- What stands between two marks that are not commas. -/
def separator : Option Mark → Option Mark → List Mark
  | some (.str _), some (.str _) => [.comma]
  | some (.str _), some .opening => [.comma]
  | some .closing, some (.str _) => [.comma]
  | some .closing, some .opening => [.comma]
  | _, _ => []

def withCommas : List Mark → List Mark
  | [] => []
  | m :: ms => m :: separator m ms.head? ++ withCommas ms

@[simp] theorem separator_none_left (m : Option Mark) : separator none m = [] := by
  cases m <;> rfl

@[simp] theorem separator_none_right (m : Option Mark) : separator m none = [] := by
  rcases m with _ | m
  · rfl
  · cases m <;> rfl

theorem separator_opening (m : Option Mark) : separator (some .opening) m = [] := by
  rcases m with _ | m
  · rfl
  · cases m <;> rfl

theorem separator_closing (m : Option Mark) : separator m (some .closing) = [] := by
  rcases m with _ | m
  · rfl
  · cases m <;> rfl

theorem withCommas_append (l m : List Mark) :
    withCommas (l ++ m) = withCommas l ++ separator l.getLast? m.head? ++ withCommas m := by
  induction l with
  | nil => simp [withCommas]
  | cons a l ih =>
    rw [List.cons_append, withCommas, withCommas, ih]
    cases l with
    | nil => simp [withCommas]
    | cons b l => simp [List.getLast?_cons]

theorem filter_separator (m n : Option Mark) : (separator m n).filter (· ≠ .comma) = [] := by
  rw [separator.eq_def]
  split <;> rfl

theorem filter_withCommas {l : List Mark} (h : .comma ∉ l) :
    (withCommas l).filter (· ≠ .comma) = l := by
  induction l with
  | nil => rfl
  | cons m l ih =>
    rw [List.mem_cons, not_or] at h
    rw [withCommas, List.cons_append, List.filter_cons_of_pos (by simpa using Ne.symm h.1),
      List.filter_append, filter_separator, ih h.2, List.nil_append]

mutual

theorem comma_notMem_tokens : ∀ v : Json, .comma ∉ v.tokens
  | .str s => by simp [tokens]
  | .arr l => by simp [tokens, comma_notMem_listTokens l]

theorem comma_notMem_listTokens : ∀ l : List Json, .comma ∉ listTokens l
  | [] => by simp [listTokens]
  | v :: l => by simp [listTokens, comma_notMem_tokens v, comma_notMem_listTokens l]

end

/-- A value begins with a string or a bracket and ends so. -/
theorem separator_tokens (v w : Json) (l m : List Mark) :
    separator (l ++ v.tokens).getLast? (w.tokens ++ m).head? = [.comma] := by
  have hhead :
      (w.tokens ++ m).head? = some .opening ∨ ∃ s, (w.tokens ++ m).head? = some (.str s) := by
    cases w with
    | str s => exact .inr ⟨s, rfl⟩
    | arr k => exact .inl rfl
  have hlast : (l ++ v.tokens).getLast? = some .closing ∨
      ∃ s, (l ++ v.tokens).getLast? = some (.str s) := by
    cases v with
    | str s => exact .inr ⟨s, List.getLast?_concat⟩
    | arr k => exact .inl (by rw [tokens, ← List.append_assoc, List.getLast?_concat])
  rcases hhead with hh | ⟨s, hh⟩ <;> rcases hlast with hl | ⟨t, hl⟩ <;> rw [hh, hl] <;> rfl

mutual

theorem marks_eq : ∀ v : Json, v.marks = withCommas v.tokens
  | .str s => rfl
  | .arr l => by
    rw [marks, tokens, List.cons_append, List.cons_append, withCommas, separator_opening,
      withCommas_append, List.head?_cons, separator_closing, listMarks_eq]
    simp [withCommas]

theorem listMarks_eq : ∀ l : List Json, listMarks l = withCommas (listTokens l)
  | [] => rfl
  | [v] => by rw [listMarks, marks_eq v, listTokens, listTokens, List.append_nil]
  | v :: w :: l => by
    have hcomma : separator v.tokens.getLast? (listTokens (w :: l)).head? = [.comma] :=
      separator_tokens v w [] (listTokens l)
    rw [listMarks, marks_eq v, listMarks_eq (w :: l), listTokens.eq_2 v, withCommas_append, hcomma]
    simp

end

theorem withCommas_eq_marks {l : List Mark} (h : .comma ∉ l) (v : Json) :
    withCommas l = v.marks ↔ l = v.tokens := by
  refine ⟨fun he => ?_, fun he => by rw [he, marks_eq]⟩
  rw [← filter_withCommas h, he, marks_eq, filter_withCommas (comma_notMem_tokens v)]

end Tokens

end Json

end Smts.Lib
