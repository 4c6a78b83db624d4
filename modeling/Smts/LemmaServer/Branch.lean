import Smts.LemmaServer.Resolving

namespace Smts.LemmaServer

open Smts.Lib
open Smts.Lib.Prog
open Smts.Server (render)

/-- A position in a text, or `npos`. -/
abbrev Position := Option Nat

/-- The first character from a position on that satisfies `p`. -/
def findFirst (p : UInt8 → Bool) (s : Bytes) (pos : Position) : Position :=
  pos.bind fun i =>
    let k := i + (s.drop i).findIdx p
    if k < s.length then some k else none

def findFirstNotOf (s : Bytes) (pos : Position) : Position := findFirst (· ≠ ','.toUInt8) s pos

def findFirstOf (s : Bytes) (pos : Position) : Position := findFirst (· = ','.toUInt8) s pos

/-- `s.substr(beg, pos - beg)`. -/
def substr (s : Bytes) (beg : Nat) (pos : Position) : Bytes :=
  match pos with
  | none => s.drop beg
  | some pos => (s.drop beg).take (pos - beg)

theorem findFirst_some {p : UInt8 → Bool} {s : Bytes} {i k : Nat}
    (h : findFirst p s (some i) = some k) : i ≤ k ∧ k < s.length := by
  simp only [findFirst, Option.bind_some] at h
  split at h
  · cases h
    omega
  · cases h

theorem findFirst_none {p : UInt8 → Bool} {s : Bytes} {i : Nat}
    (h : findFirst p s (some i) = none) : ∀ c ∈ s.drop i, p c = false := by
  simp only [findFirst, Option.bind_some] at h
  split at h
  · cases h
  · rename_i hge
    have hle := @List.findIdx_le_length _ p (s.drop i)
    refine fun c hc => (List.findIdx_eq_length.mp ?_) c hc
    have hpos := List.length_pos_of_mem hc
    rw [List.length_drop] at hle hpos ⊢
    omega

/-- What lies before the character that is found, and what from it on. -/
theorem findFirst_split {p : UInt8 → Bool} {s : Bytes} {i k : Nat}
    (h : findFirst p s (some i) = some k) :
    (s.drop i).take (k - i) = (s.drop i).takeWhile (fun c => !p c) ∧
      s.drop k = (s.drop i).dropWhile (fun c => !p c) ∧ ∃ c, s.drop k = c :: s.drop (k + 1) ∧ p c := by
  simp only [findFirst, Option.bind_some] at h
  split at h
  · rename_i hlt
    cases h
    simp only [List.takeWhile_eq_take_findIdx_not, List.dropWhile_eq_drop_findIdx_not, Bool.not_not,
      List.drop_drop, Nat.add_sub_cancel_left, true_and]
    refine ⟨s[i + (s.drop i).findIdx p], List.drop_eq_getElem_cons hlt, ?_⟩
    have hfound : (s.drop i).findIdx p < (s.drop i).length := by
      rw [List.length_drop]
      omega
    have := List.findIdx_getElem (w := hfound)
    rwa [List.getElem_drop] at this
  · cases h

/-- `while ((beg = code.find_first_not_of(",", pos)) != npos)`, of which `f` is the rest of a
round. -/
def whileCodes {m : Type → Type} [Monad m] {β : Type} (f : β → Bytes → m β)
    (code : Bytes) (b : β) (pos : Position) : m β :=
  match pos with
  | none => pure b
  | some i =>
    match h : findFirstNotOf code (some i) with
    | none => pure b
    | some beg => do
      let pos := findFirstOf code (some (beg + 1))
      whileCodes f code (← f b (substr code beg pos)) pos
termination_by pos.elim 0 fun i => code.length + 1 - i
decreasing_by
  have hbeg := findFirst_some h
  cases hpos : findFirstOf code (some (beg + 1)) with
  | none => simp only [Option.elim_none, Option.elim_some]; omega
  | some k =>
    have hk := findFirst_some hpos
    simp only [Option.elim_some]
    omega

section Tokens

variable {m : Type → Type} [Monad m] {β : Type} {f : β → Bytes → m β} {code : Bytes}

theorem tokens_append_cons (l l' : Bytes) :
    tokens (l ++ ','.toUInt8 :: l') = tokens l ++ tokens l' := by
  simp [tokens, List.splitOn, List.splitOnP_append_cons]

theorem tokens_of_not_mem {l : Bytes} (h : ','.toUInt8 ∉ l) (hne : l ≠ []) : tokens l = [l] := by
  rw [tokens, List.splitOn_eq_singleton_of_beq_eq_false fun c hc => by
    simpa using ne_of_mem_of_not_mem hc h]
  simp [hne]

theorem tokens_dropWhile (l : Bytes) : tokens (l.dropWhile (· = ','.toUInt8)) = tokens l := by
  induction l with
  | nil => rfl
  | cons c l ih =>
    by_cases hc : c = ','.toUInt8
    · subst hc
      rw [List.dropWhile_cons_of_pos (by simp), ih]
      exact (tokens_append_cons [] l).symm
    · rw [List.dropWhile_cons_of_neg (by simpa using hc)]

/-- What a round cuts out is the first token. -/
theorem tokens_round {beg : Nat} {c : UInt8} (hc : code.drop beg = c :: code.drop (beg + 1))
    (hcomma : c ≠ ','.toUInt8) :
    tokens (c :: code.drop (beg + 1)) =
      substr code beg (findFirstOf code (some (beg + 1))) ::
        tokens ((findFirstOf code (some (beg + 1))).elim [] code.drop) := by
  cases hpos : findFirstOf code (some (beg + 1)) with
  | none =>
    have hrest : ','.toUInt8 ∉ code.drop (beg + 1) := fun h => by
      simpa using findFirst_none hpos ','.toUInt8 h
    rw [substr, hc, tokens_of_not_mem (by simp [hcomma.symm, hrest]) (List.cons_ne_nil _ _)]
    rfl
  | some k =>
    obtain ⟨hle, -⟩ := findFirst_some hpos
    obtain ⟨htake, hdrop, d, hd, hfound⟩ := findFirst_split hpos
    obtain rfl : d = ','.toUInt8 := by simpa using hfound
    have htoken : substr code beg (some k) = c :: (code.drop (beg + 1)).take (k - (beg + 1)) := by
      rw [substr, hc, show k - beg = k - (beg + 1) + 1 by omega, List.take_succ_cons]
    have hplain : ','.toUInt8 ∉ c :: (code.drop (beg + 1)).take (k - (beg + 1)) := by
      rw [htake, List.mem_cons]
      rintro (h | h)
      · exact hcomma h.symm
      · simpa using List.mem_takeWhile_imp h
    have hsplit : c :: code.drop (beg + 1) =
        (c :: (code.drop (beg + 1)).take (k - (beg + 1))) ++ ','.toUInt8 :: code.drop (k + 1) := by
      rw [List.cons_append, htake, ← hd, hdrop, List.takeWhile_append_dropWhile]
    have hnext : tokens (code.drop k) = tokens (code.drop (k + 1)) := by
      rw [hd]
      exact tokens_append_cons [] _
    rw [hsplit, tokens_append_cons, tokens_of_not_mem hplain (List.cons_ne_nil _ _), htoken,
      Option.elim_some, hnext]
    rfl

/-- The loop runs over the tokens of the rest of the text. -/
theorem whileCodes_eq (b : β) (pos : Position) :
    whileCodes f code b pos = (tokens (pos.elim [] code.drop)).foldlM f b := by
  induction b, pos using whileCodes.induct code with
  | case1 b =>
    rw [whileCodes]
    rfl
  | case2 b i hnone =>
    have hcommas : tokens (code.drop i) = [] := by
      rw [← tokens_dropWhile, List.dropWhile_eq_nil_iff.mpr fun c hc => by
        simpa using findFirst_none hnone c hc]
      rfl
    rw [whileCodes, Option.elim_some, hcommas]
    split
    · rfl
    · rename_i hsome
      cases hnone.symm.trans hsome
  | case3 b i beg hbeg pos ih =>
    obtain ⟨-, hdrop, c, hc, hcomma⟩ := findFirst_split hbeg
    have htokens : tokens (code.drop i) = tokens (c :: code.drop (beg + 1)) := by
      rw [← hc, hdrop, ← tokens_dropWhile]
      simp
    rw [whileCodes, Option.elim_some, htokens, tokens_round hc (by simpa using hcomma),
      List.foldlM_cons]
    split
    · rename_i hnone
      cases hnone.symm.trans hbeg
    · rename_i beg' hsome
      cases hsome.symm.trans hbeg
      exact congrArg (f b _ >>= ·) (funext ih)

end Tokens

theorem foldEach_eq_foldlM {σ ε α β : Type} (f : β → α → Prog σ ε β) (b : β) (as : List α) :
    foldEach f b as = as.foldlM f b := by
  induction as generalizing b with
  | nil => rfl
  | cons a as ih =>
    rw [foldEach, List.foldlM_cons]
    exact congrArg (f b a >>= ·) (funext ih)

/-- The loop of `lemma_worker` over a path, from the root of the tree on. -/
def nodePath (name : Bytes) (code : Bytes) : M (List Address × Nat) :=
  whileCodes (visit name) (eraseSpaces code) ([[]], 0) (some 0)

theorem nodePath_eq (name : Bytes) (code : Bytes) :
    nodePath name code = foldEach (visit name) ([[]], 0) (tokens (eraseSpaces code)) := by
  rw [nodePath, whileCodes_eq, foldEach_eq_foldlM]
  rfl

theorem resolve_eq (event : Event) :
    resolve event = (do
      let request ← ofExcept ((substr1 event.sign).bind stoi)
      open_ (get event.header "name")
      let code ← ofExcept (inner (get event.header "node"))
      let (path, _) ← nodePath (get event.header "name") code
      pure (path, (request % 2 ^ 32).toNat)) := by
  simp only [resolve, nodePath_eq]

/-- The consecutive pairs of a path: an OR index and an AND index. -/
def pairs : List Nat → List (Nat × Nat)
  | o :: a :: p => (o, a) :: pairs p
  | _ => []

theorem map_snd_pairs (p : List Nat) : (pairs p).map Prod.snd = ands p := by
  induction p using pairs.induct with
  | case1 o a p ih => rw [pairs, List.map_cons, ih, ands]
  | case2 p hp => rw [pairs.eq_2 p hp, ands.eq_2 p hp, List.map_nil]

theorem mem_of_mem_ands {p : List Nat} {i : Nat} (h : i ∈ ands p) : i ∈ p := by
  induction p using ands.induct with
  | case1 o a p ih =>
    rw [ands, List.mem_cons] at h
    rcases h with rfl | h
    · simp
    · exact List.mem_cons_of_mem _ (List.mem_cons_of_mem _ (ih h))
  | case2 p hp =>
    rw [ands.eq_2 p hp] at h
    exact absurd h List.not_mem_nil

/-- One round of `extractSolverBranch`: the branch, the counter and the number kept aside. -/
def branchRound (acc : List (Int × Int) × Nat × Int) (token : Bytes) :
    Except Exn (List (Int × Int) × Nat × Int) := do
  let (solverBranch, counter, temp) := acc
  let index ← stoi token
  if counter % 2 = 1 then pure (solverBranch ++ [(temp, index)], counter + 1, temp)
  else pure (solverBranch, counter + 1, index)

def extractSolverBranch (s : Bytes) : Except Exn (List (Int × Int)) := do
  let (solverBranch, _) ← whileCodes branchRound (eraseSpaces s) ([], 0, 0) (some 0)
  pure solverBranch

section Render

variable {p : List Nat} {name : Bytes} {s : State}

theorem foldlM_branchRound (heven : p.length % 2 = 0) (hlt : ∀ i ∈ p, i < 2 ^ 31)
    (branch : List (Int × Int)) (counter : Nat) (hc : counter % 2 = 0) (temp : Int) :
    ∃ rest, (p.map decimal).foldlM branchRound (branch, counter, temp) =
      .ok (branch ++ (pairs p).map fun q => ((q.1 : Int), (q.2 : Int)), rest) := by
  induction p using pairs.induct generalizing branch counter temp with
  | case1 o a p ih =>
    simp only [List.forall_mem_cons] at hlt
    obtain ⟨ho, ha, hp⟩ := hlt
    obtain ⟨rest, hrest⟩ := ih (by simp only [List.length_cons] at heven; omega) hp
      (branch ++ [((o : Int), (a : Int))]) (counter + 1 + 1) (by omega) o
    refine ⟨rest, ?_⟩
    have hodd : (counter + 1) % 2 = 1 := by omega
    have hfirst : branchRound (branch, counter, temp) (decimal o) =
        .ok (branch, counter + 1, (o : Int)) := by
      rw [branchRound, stoi_decimal, if_pos ho]
      exact if_neg (by omega)
    have hsecond : branchRound (branch, counter + 1, (o : Int)) (decimal a) =
        .ok (branch ++ [((o : Int), (a : Int))], counter + 1 + 1, (o : Int)) := by
      rw [branchRound, stoi_decimal, if_pos ha]
      exact if_pos hodd
    have hrounds : ((o :: a :: p).map decimal).foldlM branchRound (branch, counter, temp) =
        (p.map decimal).foldlM branchRound
          (branch ++ [((o : Int), (a : Int))], counter + 1 + 1, (o : Int)) := by
      rw [List.map_cons, List.map_cons, List.foldlM_cons, hfirst]
      change branchRound _ _ >>= _ = _
      rw [hsecond]
      rfl
    rw [hrounds, hrest, List.append_assoc]
    rfl
  | case2 p hp =>
    cases p with
    | nil => exact ⟨_, by simp [pairs]; rfl⟩
    | cons o p =>
      cases p with
      | nil => simp at heven
      | cons a p => exact absurd rfl (hp o a p)

theorem extractSolverBranch_render (heven : p.length % 2 = 0) (hlt : ∀ i ∈ p, i < 2 ^ 31) :
    extractSolverBranch (separator.intercalate (p.map decimal)) =
      .ok ((pairs p).map fun q => ((q.1 : Int), (q.2 : Int))) := by
  obtain ⟨rest, hrest⟩ := foldlM_branchRound heven hlt [] 0 (Nat.zero_mod 2) 0
  rw [extractSolverBranch, whileCodes_eq, Option.elim_some, List.drop_zero, tokens_render, hrest]
  rfl

theorem nodePath_render (hlt : ∀ i ∈ p, i < 2 ^ 31) (hs : Grown name [] s) :
    ∃ k t, nodePath name (separator.intercalate (p.map decimal)) s =
      (.ok (((pairs p).map Prod.snd).inits, k), t) ∧ Grown name ((pairs p).map Prod.snd) t := by
  have hands : ∀ i ∈ ands p, i < 2 ^ 31 := fun i hi => hlt i (mem_of_mem_ands hi)
  have hvisits := wp_visits (p.map decimal) (p := []) (Nat.zero_mod 2) hs
  rw [childNumbers_digits, if_pos hands] at hvisits
  rw [nodePath_eq, tokens_render, map_snd_pairs]
  rw [wp] at hvisits
  split at hvisits
  · rename_i acc t hrun
    obtain ⟨path, k⟩ := acc
    obtain ⟨q, hq, rfl, hgrown, -⟩ := hvisits
    obtain rfl := Option.some.inj hq
    exact ⟨k, t, hrun, hgrown⟩
  · exact absurd hvisits.2.1 (Option.some_ne_none _)

/-- The two parsers undo the text of a path. -/
theorem paths_read (p : List Nat) (heven : p.length % 2 = 0) (hlt : ∀ i ∈ p, i < 2 ^ 31)
    (name : Bytes) (s : State) :
    ∃ code, inner (utf8 (render p)) = .ok code ∧
      extractSolverBranch code = .ok ((pairs p).map fun q => ((q.1 : Int), (q.2 : Int))) ∧
      ∃ k t, nodePath name code (open_ name s).2 =
        (.ok (((pairs p).map Prod.snd).inits, k), t) ∧ Grown name ((pairs p).map Prod.snd) t :=
  ⟨_, inner_render p, extractSolverBranch_render heven hlt, nodePath_render hlt (grown_root open_root)⟩

theorem paths_read_deep :
    ([0, 12, 3, 0].length % 2 = 0 ∧ ∀ i ∈ [0, 12, 3, 0], i < 2 ^ 31) ∧
    ∃ code, inner (utf8 (render [0, 12, 3, 0])) = .ok code ∧
      extractSolverBranch code = .ok [(0, 12), (3, 0)] ∧
      ∃ k t, nodePath (utf8 "a.smt2") code (open_ (utf8 "a.smt2") {}).2 =
        (.ok ([[], [12], [12, 0]], k), t) ∧ Grown (utf8 "a.smt2") [12, 0] t := by
  have heven : [0, 12, 3, 0].length % 2 = 0 := by decide
  have hlt : ∀ i ∈ [0, 12, 3, 0], i < 2 ^ 31 := by decide
  exact ⟨⟨heven, hlt⟩, paths_read [0, 12, 3, 0] heven hlt (utf8 "a.smt2") {}⟩

end Render

end Smts.LemmaServer
