import Smts.Server.Actions

namespace Smts.Server

open Smts.Lib Smts.Lib.Prog

namespace Header

theorem lookup_cons_if (k v : String) (h : Header) (k' : String) :
    List.lookup k' ((k, v) :: h) = if k' = k then some v else h.lookup k' := by
  rw [List.lookup_cons]
  by_cases hk : k' = k
  · simp [hk]
  · have hb : (k' == k) = false := by simpa using hk
    rw [hb, if_neg hk]

theorem lookup_map_set (h : Header) (k v : String) (k' : String) :
    (h.map fun e => if e.1 = k then (k, v) else e).lookup k' =
      if k' = k then (h.lookup k).map fun _ => v else h.lookup k' := by
  induction h with
  | nil => simp
  | cons e h ih =>
    obtain ⟨a, b⟩ := e
    rw [List.map_cons, lookup_cons_if a b h k, lookup_cons_if a b h k']
    by_cases ha : a = k
    · rw [if_pos ha, lookup_cons_if, ih]
      by_cases hk : k' = k
      · simp [hk, ha]
      · simp [hk, ha]
    · rw [if_neg ha, lookup_cons_if, ih]
      by_cases hk : k' = k
      · subst hk
        simp [Ne.symm ha]
      · simp [hk]

theorem lookup_append (h l : Header) (k : String) :
    (h ++ l).lookup k = (h.lookup k).or (l.lookup k) := by
  induction h with
  | nil => simp
  | cons e h ih =>
    obtain ⟨a, b⟩ := e
    rw [List.cons_append, lookup_cons_if, lookup_cons_if, ih]
    split <;> rfl

@[simp] theorem lookup_set (h : Header) (k v k' : String) :
    (h.set k v).lookup k' = if k' = k then some v else h.lookup k' := by
  rw [set, has]
  split
  · next hh =>
    rw [lookup_map_set]
    obtain ⟨w, hw⟩ := Option.isSome_iff_exists.mp hh
    by_cases hk : k' = k
    · simp [hk, hw]
    · simp [hk]
  · next hh =>
    have hn : h.lookup k = none := Option.not_isSome_iff_eq_none.mp hh
    rw [lookup_append]
    rw [lookup_cons_if]
    by_cases hk : k' = k
    · subst hk; simp [hn]
    · simp [hk]

@[simp] theorem update_nil (h : Header) : h.update [] = h := rfl

@[simp] theorem update_cons (h : Header) (e : String × String) (l : Header) :
    h.update (e :: l) = (h.set e.1 e.2).update l := rfl

end Header

section Primitives

variable {Q : Unit → State → Prop} {E : Exn → State → Prop} {s : State}

/-- A write sends the whole message or nothing. -/
theorem wp_write {x : SockId} {header : Header} {payload : String} {about : Option NodeId}
    (sent : ∀ w, w.env = s.world.env →
      Q () { s with world := w, sent := s.sent ++ [⟨x, header, payload, about⟩] })
    (failed : ∀ e w, w.env = s.world.env → e ≠ .noFuel → e ≠ .systemExit →
      E e { s with world := w }) :
    wp (write x header payload about) Q E s := by
  cases hs : s.sock x with
  | none => simpa [wp, write, hs] using failed _ s.world rfl (by decide) (by decide)
  | some c =>
    by_cases hf : header.fits payload = true
    · by_cases ho : (s.isOpen c && s.world.env.writeOk s.world.writeTick) = true
      · simp only [wp, write, hs, hf, ho, if_true]
        exact sent _ rfl
      · simp only [wp, write, hs, hf, ho, if_true]
        exact failed _ _ rfl (by decide) (by decide)
    · simp only [wp, write, hs, hf]
      exact failed _ s.world rfl (by decide) (by decide)

@[simp] theorem wp_now {Q : Time → State → Prop} :
    wp now Q E s = Q (s.world.env.clock s.world.clockTick)
      { s with world := { s.world with clockTick := s.world.clockTick + 1 } } := rfl

@[simp] theorem wp_modifySolver {x : SockId} {f : SolverData → SolverData} :
    wp (modifySolver x f) Q E s =
      Q () { s with solver := Function.update s.solver x (f (s.solver x)) } := rfl

@[simp] theorem wp_modifyNode {n : NodeId} {f : Attrs → Attrs} :
    wp (modifyNode n f) Q E s = Q () { s with heap := s.heap.modify n f } := rfl

@[simp] theorem wp_modifyHeap {f : Heap → Heap} :
    wp (modifyHeap f) Q E s = Q () { s with heap := f s.heap } := rfl

@[simp] theorem wp_modifyConfig {f : Config → Config} :
    wp (modifyConfig f) Q E s = Q () { s with config := f s.config } := rfl

@[simp] theorem wp_modifyInst {i : InstId} {f : Instance → Instance} :
    wp (modifyInst i f) Q E s =
      Q () { s with inst := Function.update s.inst i (f (s.inst i)) } := rfl

@[simp] theorem wp_print {line : Output} :
    wp (print line) Q E s = Q () { s with out := s.out ++ [line] } := rfl

end Primitives

theorem Sent.places_cons (x : SockId) (c : String) (h : Header) (payload : String)
    (about : Option NodeId) :
    Sent.places ⟨x, (Constant.command, c) :: h, payload, about⟩ =
      (c = Constant.solve || c = Constant.incremental) := by
  simp [Sent.places]

/-- The program does nothing but quiet changes, and has no loop to run out of fuel. -/
def Still {α : Type} (m : M α) : Prop :=
  ∀ s, wp m (fun _ t => Quiet s t) (fun e t => Quiet s t ∧ e ≠ .noFuel) s

namespace Still

variable {α β : Type} {m : M α} {Q : α → State → Prop} {E : Exn → State → Prop} {s : State}

theorem wp (h : Still m) (hQ : ∀ a t, Quiet s t → Q a t)
    (hE : ∀ e t, Quiet s t → e ≠ .noFuel → E e t) : Prog.wp m Q E s :=
  wp_mono (h s) hQ fun e t ht => hE e t ht.1 ht.2

theorem pure (a : α) : Still (Pure.pure a : M α) := fun s => Quiet.refl s

theorem bind {f : α → M β} (hm : Still m) (hf : ∀ a, Still (f a)) : Still (m >>= f) := by
  intro s
  rw [wp_bind]
  exact hm.wp (fun a t ht => (hf a).wp (fun _ _ hu => ht.trans hu)
    fun _ _ hu he => ⟨ht.trans hu, he⟩) fun _ _ ht he => ⟨ht, he⟩

theorem get : Still (Prog.get : M State) := fun s => Quiet.refl s

theorem gets (f : State → α) : Still (Prog.gets f : M α) := fun s => Quiet.refl s

theorem raise {e : Exn} (he : e ≠ .noFuel) : Still (Prog.raise e : M α) :=
  fun s => ⟨Quiet.refl s, he⟩

theorem ofExcept {r : Except Exn α} (hr : ∀ e, r = .error e → e ≠ .noFuel) :
    Still (Prog.ofExcept r : M α) := by
  intro s
  cases r with
  | error e => exact ⟨Quiet.refl s, hr e rfl⟩
  | ok a => exact Quiet.refl s

theorem when {c : Prop} [Decidable c] {m : M Unit} (h : Still m) : Still (Prog.when c m) := by
  by_cases hc : c
  · simpa [Prog.when, hc] using h
  · simpa [Prog.when, hc] using pure ()

theorem ite {c : Prop} [Decidable c] {m' : M α} (h : Still m) (h' : Still m') :
    Still (if c then m else m') := by
  by_cases hc : c
  · simpa [hc] using h
  · simpa [hc] using h'

theorem forEach {f : α → M Unit} (h : ∀ a, Still (f a)) (as : List α) :
    Still (Prog.forEach f as) := by
  induction as with
  | nil => exact pure ()
  | cons a as ih => exact (h a).bind fun _ => ih

theorem foldEach {f : β → α → M β} (h : ∀ b a, Still (f b a)) (b : β) (as : List α) :
    Still (Prog.foldEach f b as) := by
  induction as generalizing b with
  | nil => exact pure b
  | cons a as ih => exact (h b a).bind fun b => ih b

theorem now : Still Server.now := fun _ =>
  Quiet.of_rest rfl rfl rfl rfl (.refl _) (fun _ => rfl) (fun _ => rfl) fun _ => rfl

theorem random : Still Server.random := fun _ =>
  Quiet.of_rest rfl rfl rfl rfl (.refl _) (fun _ => rfl) (fun _ => rfl) fun _ => rfl

theorem inOrder (xs : List SockId) : Still (Server.inOrder xs) := fun _ =>
  Quiet.of_rest rfl rfl rfl rfl (.refl _) (fun _ => rfl) (fun _ => rfl) fun _ => rfl

theorem modifyConfig {f : Config → Config} (hp : ∀ c, (f c).portfolioMin = c.portfolioMin)
    (hl : ∀ c, (f c).enableLog = c.enableLog) : Still (Server.modifyConfig f) := fun s =>
  Quiet.of_rest rfl rfl (hp s.config) (hl s.config) (.refl _) (fun _ => rfl) (fun _ => rfl)
    fun _ => rfl

theorem modifyInst (i : InstId) {f : Instance → Instance} (hr : ∀ d, (f d).root = d.root) :
    Still (Server.modifyInst i f) := fun s => by
  refine Quiet.of_rest rfl rfl rfl rfl (.refl _) (fun _ => rfl) (fun _ => rfl) fun j => ?_
  simp only [State.root, Function.update_apply]
  split
  · next he => rw [hr, he]
  · rfl

theorem modifyNode (n : NodeId) {f : Attrs → Attrs} (hs : ∀ a, (f a).status = a.status)
    (hp : ∀ a, (f a).partitioning = a.partitioning) (hd : ∀ a, (f a).processed = a.processed) :
    Still (Server.modifyNode n f) := fun s => by
  refine Quiet.of_rest rfl rfl rfl rfl ⟨rfl, rfl, fun m => ?_, fun m => ?_, fun m => ?_⟩
    (fun _ => rfl) (fun _ => rfl) fun _ => rfl
  · rw [Heap.modify_status]
    split
    · next he => rw [hs, he]; rfl
    · rfl
  · rw [Heap.modify_attrs]
    split
    · next he => rw [hp, he]
    · rfl
  · rw [Heap.modify_attrs]
    split
    · next he => rw [hd, he]
    · rfl

theorem modifySolver (x : SockId) {f : SolverData → SolverData} (hn : ∀ d, (f d).node = d.node)
    (ho : ∀ d, (f d).orWaiting = d.orWaiting) : Still (Server.modifySolver x f) := fun s => by
  refine Quiet.of_rest rfl rfl rfl rfl (.refl _) (fun y => ?_) (fun y => ?_) fun _ => rfl
  · simp only [Function.update_apply]
    split
    · next he => rw [hn, he]
    · rfl
  · simp only [Function.update_apply]
    split
    · next he => rw [ho, he]
    · rfl

theorem print {line : Output} (h : line.verdict? = none) : Still (Server.print line) := fun s => {
  Quiet.refl s with
  verdicts := by simp [State.verdicts, h] }

theorem write {x : SockId} {header : Header} {payload : String} {about : Option NodeId}
    (h : Sent.places ⟨x, header, payload, about⟩ = false) :
    Still (Server.write x header payload about) := fun s => by
  refine wp_write (fun w hw => ?_) fun e w hw he _ => ?_
  · exact Quiet.frame s hw rfl rfl fun _ hm => List.mem_singleton.mp hm ▸ h
  · exact ⟨Quiet.of_rest rfl hw rfl rfl (.refl _) (fun _ => rfl) (fun _ => rfl) fun _ => rfl, he⟩

end Still

section Errors

variable {h : Heap} {e : Exn}

theorem SMT.climb_error {node : NodeId} {k : Nat} {start : NodeId}
    (he : SMT.climb h node k start = .error e) : e = .valueError ∨ e = .attributeError := by
  induction k generalizing start with
  | zero =>
    unfold SMT.climb at he
    split at he
    · cases he; decide
    · split at he <;> cases he
      decide
  | succ k ih =>
    unfold SMT.climb at he
    split at he
    · cases he; decide
    · split at he
      · exact nomatch he
      · cases hp : h.parent start with
        | none =>
          rw [hp] at he
          cases he
          decide
        | some p =>
          rw [hp] at he
          cases hc : SMT.climb h node k p with
          | error e' =>
            simp only [hc, bind, Except.bind, Except.error.injEq] at he
            subst he
            exact ih hc
          | ok r =>
            simp only [hc, bind, Except.bind] at he
            exact nomatch he

theorem SMT.collect_error {self : NodeId} {start : Option NodeId} {k : Nat} {node : Option NodeId}
    (he : SMT.collect h self start k node = .error e) : e = .valueError ∨ e = .attributeError := by
  induction k generalizing node with
  | zero =>
    unfold SMT.collect at he
    split at he
    · exact nomatch he
    · cases he; decide
  | succ k ih =>
    unfold SMT.collect at he
    split at he
    · exact nomatch he
    · cases node with
      | none => cases he; decide
      | some n =>
        cases hc : SMT.collect h self start k (h.parent n) with
        | error e' =>
          simp only [hc, bind, Except.bind, Except.error.injEq] at he
          subst he
          exact ih hc
        | ok rest =>
          simp only [hc, bind, Except.bind] at he
          split at he <;> exact nomatch he

theorem SMT.toString_error {self node : NodeId} {start : Option NodeId}
    (he : SMT.toString h self node start = .error e) : e = .valueError ∨ e = .attributeError := by
  have last : ∀ r : Option NodeId × Nat, (do
      let smt ← SMT.collect h self r.1 (node + 1) (some node)
      return ("\n".intercalate (smt ++ List.replicate r.2 Constant.pop).reverse,
        Constant.checkSat) : Except Exn (String × String)) = .error e →
      e = .valueError ∨ e = .attributeError := by
    intro r he
    cases hc : SMT.collect h self r.1 (node + 1) (some node) with
    | error e' =>
      simp only [hc, bind, Except.bind, Except.error.injEq] at he
      subst he
      exact SMT.collect_error hc
    | ok smt =>
      simp only [hc, bind, Except.bind] at he
      exact nomatch he
  unfold SMT.toString at he
  cases start with
  | none => exact last (none, 0) he
  | some s =>
    cases hc : SMT.climb h node s s with
    | error e' =>
      simp only [hc, bind, Except.bind, Except.error.injEq] at he
      subst he
      exact SMT.climb_error hc
    | ok r =>
      simp only [hc, bind, Except.bind] at he
      exact last (some r.1, r.2) he

theorem Heap.toString_raises {self node : NodeId} {start : Option NodeId}
    (he : h.toString self node start = .error e) : e = .valueError ∨ e = .attributeError := by
  unfold Heap.toString at he
  split at he
  · exact SMT.toString_error he
  · split at he
    · cases he; decide
    · split at he
      · exact nomatch he
      · split at he
        · exact nomatch he
        · cases he; decide
  · exact nomatch he
  · cases he; decide

/-- Writing a script may fail, but not by going on for ever. -/
theorem Heap.toString_error {self node : NodeId} {start : Option NodeId}
    (he : h.toString self node start = .error e) : e ≠ .noFuel := by
  rcases Heap.toString_raises he with rfl | rfl
  · decide
  · decide

end Errors

namespace Solver

/-- The command that `Solver.solve` sends. -/
structure SolveMessage (s : State) (x : SockId) (n : NodeId) (m : Sent) : Prop where
  sock : m.sock = x
  about : m.about = some n
  command : m.header.lookup Constant.command = some Constant.solve
  name : m.header.lookup Constant.name = some (s.heap.label (s.heap.root n)).name
  node : m.header.lookup Constant.node = some (render (s.heap.path n))
  script : ∃ query, s.heap.toString (s.heap.root n) n none = .ok (m.payload, query)

/-- The command that `Solver.incremental` sends to a solver on node `a`. -/
structure MoveMessage (s : State) (x : SockId) (a n : NodeId) (m : Sent) : Prop where
  sock : m.sock = x
  about : m.about = some n
  command : m.header.lookup Constant.command = some Constant.incremental
  name : m.header.lookup Constant.name = some (s.heap.label (s.heap.root a)).name
  node_ : m.header.lookup Constant.node_ = some (render (s.heap.path n))
  script : ∃ query, s.heap.toString (s.heap.root a) n (some a) = .ok (m.payload, query)

/-- The message is about the node that the solver is on. -/
structure Matches (s : State) (x : SockId) (n : NodeId) (header : Header) : Prop where
  node : (s.solver x).node = some n
  name : header.lookup Constant.name = some (s.heap.label (s.heap.root n)).name
  path : header.lookup Constant.node = some (render (s.heap.path n))

variable {Q : Unit → State → Prop} {E : Exn → State → Prop} {s : State} {x : SockId}

theorem wp_stop (unplaced : (s.solver x).node = none → E .valueError s)
    (stopped : ∀ n t, (s.solver x).node = some n → Quiet ((Act.leave x).apply s) t → Q () t)
    (failed : ∀ e n t, (s.solver x).node = some n → Quiet ((Act.leave x).apply s) t →
      e ≠ .noFuel → E e t) :
    wp (stop x) Q E s := by
  rw [stop, wp_bind, wp_get]
  cases hn : (s.solver x).node with
  | none => exact unplaced hn
  | some n =>
    rw [wp_bind, wp_modifySolver]
    exact (Still.write (Sent.places_cons _ _ _ _ _)).wp (fun _ t ht => stopped n t hn ht)
      fun e t ht he => failed e n t hn ht he

theorem still_terminate (x : SockId) : Still (terminate x) := by
  refine Still.get.bind fun s => ?_
  cases hn : (s.solver x).node with
  | none => exact Still.raise (by decide)
  | some n => exact Still.write (Sent.places_cons _ _ _ _ _)

theorem wp_markStarted {n : NodeId} (h : ∀ t, Quiet s t → Q () t) : wp (markStarted n) Q E s := by
  rw [markStarted, wp_bind, wp_get, wp_when]
  refine ⟨fun _ => ?_, fun _ => h s (Quiet.refl s)⟩
  rw [wp_bind, wp_now, wp_modifyNode]
  refine h _ ?_
  exact (Still.now s).trans
    (Still.modifyNode (f := fun a => { a with started := some _ }) n (fun _ => rfl) (fun _ => rfl)
      (fun _ => rfl) _)

/-- The end of `solve`: nothing can fail any more. -/
theorem wp_stamp {n : NodeId} (h : ∀ t, Quiet s t → Q () t) :
    wp (do
      let t ← now
      modifySolver x fun d => { d with started := some t }
      markStarted n) Q E s := by
  rw [wp_bind, wp_now, wp_bind, wp_modifySolver]
  refine wp_markStarted fun t ht => h t (Quiet.trans ?_ ht)
  exact (Still.now s).trans
    (Still.modifySolver (f := fun d => { d with started := some _ }) x (fun _ => rfl)
      (fun _ => rfl) _)

theorem still_setLemmaServer (x : SockId) (l : Option SockId) : Still (setLemmaServer x l) := by
  exact Still.get.bind fun s => Still.write (Sent.places_cons _ _ _ _ _)

theorem wp_assign {n : NodeId} {parameters : Header}
    (sent : ∀ m t, SolveMessage s x n m → Quiet ((Act.solve x n (some m)).apply s) t → Q () t)
    (failed : ∀ e t, Quiet ((Act.solve x n none).apply s) t → e ≠ .noFuel → E e t) :
    wp (assign x n parameters) Q E s := by
  have placed : ∀ (w : World), w.env = s.world.env → ∀ (m : Option Sent) (l : List Sent),
      l = s.sent ++ m.toList → Quiet ((Act.solve x n m).apply s)
        { s with
          solver := Function.update s.solver x
            { s.solver x with node := some n, parameters := parameters }
          world := w
          sent := l } := by
    intro w hw m l hl
    subst hl
    refine Quiet.of_rest rfl hw rfl rfl (.refl _) (fun y => ?_) (fun y => ?_) fun _ => rfl
    · simp only [Act.apply, State.modifySolver, Function.update_apply]
      split <;> rfl
    · simp only [Act.apply, State.modifySolver, Function.update_apply]
      split <;> rfl
  rw [assign, wp_bind, wp_modifySolver, wp_bind, wp_get, wp_bind]
  cases hs : s.heap.toString (s.heap.root n) n none with
  | error e =>
    rw [wp_ofExcept_error]
    exact failed e _ (placed s.world rfl none _ (List.append_nil _).symm) (Heap.toString_error hs)
  | ok r =>
    obtain ⟨smt, query⟩ := r
    rw [wp_ofExcept_ok, wp_bind]
    refine wp_write (fun w hw => ?_) fun e w hw he _ => ?_
    · refine wp_stamp fun t ht => sent ⟨x, _, smt, some n⟩ t ⟨rfl, rfl, ?_, ?_, ?_, query, hs⟩
        ((placed w hw (some _) _ rfl).trans ht)
      · simp [header, Constant.command, Constant.name, Constant.node, Constant.query,
          Constant.maxMemory]
      · simp [header, Constant.command, Constant.name, Constant.node, Constant.query,
          Constant.maxMemory]
      · simp [header, Constant.command, Constant.name, Constant.node, Constant.query,
          Constant.maxMemory]
    · exact failed e _ (placed w hw none _ (List.append_nil _).symm) he

theorem wp_solve {n : NodeId} {parameters : Header}
    (free : (s.solver x).node = none → wp (assign x n parameters) Q E s)
    (busy : ∀ a, (s.solver x).node = some a → wp (do stop x; assign x n parameters) Q E s) :
    wp (solve x n parameters) Q E s := by
  rw [solve, wp_bind, wp_get, wp_bind, wp_when]
  refine ⟨fun hn => ?_, fun hn => free (not_not.mp hn)⟩
  obtain ⟨a, ha⟩ := Option.ne_none_iff_exists'.mp hn
  exact (wp_bind _ _) ▸ busy a ha

theorem wp_incremental {n : NodeId} (failed : ∀ e t, Quiet s t → e ≠ .noFuel → E e t)
    (moved : ∀ a m t, (s.solver x).node = some a → MoveMessage s x a n m →
      Quiet ((Act.move x n m).apply s) t → Q () t) :
    wp (incremental x n) Q E s := by
  rw [incremental, wp_bind, wp_get]
  cases hn : (s.solver x).node with
  | none => exact failed _ s (Quiet.refl s) (by decide)
  | some a =>
    rw [wp_bind]
    cases hs : s.heap.toString (s.heap.root a) n (some a) with
    | error e => exact failed e s (Quiet.refl s) (Heap.toString_error hs)
    | ok r =>
      obtain ⟨smt, query⟩ := r
      rw [wp_ofExcept_ok, wp_bind]
      refine wp_write (fun w hw => ?_) fun e w hw he _ => ?_
      · rw [wp_bind, wp_modifySolver, wp_bind, wp_now, wp_bind, wp_modifySolver, wp_bind]
        refine wp_markStarted fun t ht => ?_
        rw [wp_modifySolver]
        refine moved a ⟨x, header s Constant.incremental a ++
            [(Constant.node_, render (s.heap.path n)), (Constant.query, query)], smt, some n⟩ _ hn
          ⟨rfl, rfl, ?_, ?_, ?_, query, hs⟩
          { ht with env := ht.env.trans hw, node := fun y => ?_, orWaiting := fun y => ?_ }
        · simp [header]
        · simp [header, Header.lookup_cons_if, Constant.command, Constant.name]
        · simp [header, Header.lookup_cons_if, Constant.command, Constant.name, Constant.node,
            Constant.node_]
        · by_cases hy : y = x
          · simp [hy, Act.apply, State.modifySolver]
          · simpa [hy, Act.apply, State.modifySolver] using ht.node y
        · by_cases hy : y = x
          · subst hy
            simpa [Act.apply, State.modifySolver] using ht.orWaiting y
          · simpa [hy, Act.apply, State.modifySolver] using ht.orWaiting y
      · exact failed e _ (Quiet.of_rest rfl hw rfl rfl (.refl _) (fun _ => rfl) (fun _ => rfl)
          fun _ => rfl) he

theorem wp_askPartitions {k : Nat} (failed : ∀ e t, Quiet s t → e ≠ .noFuel → E e t)
    (asked : ∀ n t, (s.solver x).node = some n → n < s.heap.size → s.heap.isAnd n = true →
      Quiet ((Act.ask x n).apply s) t → Q () t) :
    wp (askPartitions x k) Q E s := by
  rw [askPartitions, wp_bind, wp_modifyConfig, wp_bind, wp_get]
  cases hn : (s.solver x).node with
  | none =>
    exact failed _ _ (Quiet.of_rest rfl rfl rfl rfl (.refl _) (fun _ => rfl) (fun _ => rfl)
      fun _ => rfl) (by decide)
  | some n =>
    simp only
    rw [wp_bind]
    refine wp_write (fun w hw => ?_) fun e w hw he _ => ?_
    · rw [wp_bind, wp_get, wp_bind]
      simp only
      by_cases hp : n < s.heap.size ∧ (s.heap.label n).cls ≠ .orNode
      · have hok : s.heap.newOr n = .ok (s.heap.addChild n { cls := .orNode } hp.1
            (by simp [hp.2])) := by simp [Heap.newOr, hp]
        rw [hok, wp_ofExcept_ok, wp_bind, wp_modify, wp_bind, wp_modifyNode, wp_modifySolver]
        refine asked n _ hn hp.1 (by simp [Heap.isAnd, Heap.isOr, hp.2]) ?_
        have hask : s.heap.ask n = (s.heap.addChild n { cls := .orNode } hp.1
            (by simp [hp.2])).2.modify n fun a => { a with partitioning := true } := by
          simp [Heap.ask, hok]
        simp only [Act.apply, hask]
        exact Quiet.frame _ hw rfl rfl fun m hm => by
          rw [List.mem_singleton.mp hm]
          exact Sent.places_cons _ _ _ _ _
      · have herr : s.heap.newOr n = .error .typeError := by simp only [Heap.newOr, hp, dite_false]
        rw [herr, wp_ofExcept_error]
        refine failed _ _ (Quiet.frame s hw rfl rfl fun m hm => ?_) (by decide)
        rw [List.mem_singleton.mp hm]
        exact Sent.places_cons _ _ _ _ _
    · exact failed e _ (Quiet.of_rest rfl hw rfl rfl (.refl _) (fun _ => rfl) (fun _ => rfl)
        fun _ => rfl) he

theorem name_of_ofName? {report : String} {status : SolveStatus}
    (h : SolveStatus.ofName? report = some status) : report = status.name := by
  unfold SolveStatus.ofName? at h
  split at h
  · next he => cases h; exact he
  · split at h
    · next he => cases h; exact he
    · split at h
      · next he => cases h; exact he
      · exact nomatch h

theorem wp_markUnsat {l : List NodeId} (h : Q () { s with heap := s.heap.markUnsat l }) :
    wp (forEach (fun child => do
      let h ← gets State.heap
      when (h.status child = .unknown ∧ h.isAnd child)
        (modifyHeap fun h => h.setStatus child .unsat)) l) Q E s := by
  induction l generalizing s with
  | nil => exact h
  | cons c cs ih =>
    rw [Heap.markUnsat] at h
    rw [forEach, wp_bind, wp_bind, wp_gets, wp_when]
    refine ⟨fun hc => ?_, fun hc => ?_⟩
    · rw [if_pos hc] at h
      exact ih h
    · rw [if_neg hc] at h
      exact ih h

theorem wp_readStatus {n : NodeId} {status : SolveStatus}
    (read : ∀ t, Quiet ((Act.report x n status).apply s) t → Q () t) :
    wp (readStatus x n status) Q E s := by
  rw [readStatus, wp_bind, wp_modifySolver, wp_bind, wp_modifyHeap, wp_when]
  refine ⟨fun hu => ?_, fun hu => ?_⟩
  · rw [wp_bind, wp_gets]
    refine wp_markUnsat (read _ ?_)
    have hr : s.heap.report n status =
        (s.heap.setStatus n status).markUnsat ((s.heap.setStatus n status).all n) := by
      simp only [Heap.report, if_pos hu]
    simp only [Act.apply, hr]
    exact Quiet.refl _
  · have hr : s.heap.report n status = s.heap.setStatus n status := by
      simp only [Heap.report, if_neg hu]
    refine read _ ?_
    simp only [Act.apply, hr]
    exact Quiet.refl _

theorem still_recount (o : NodeId) : Still (recount o) := by
  refine Still.get.bind fun s => ?_
  cases s.config.partitionPolicy[1]? with
  | none => exact Still.raise (by decide)
  | some k => exact Still.when (Still.modifyConfig (fun _ => rfl) fun _ => rfl)

theorem wp_readPartitions {header : Header} {payload : Payload} {o : NodeId}
    {Q : Received → State → Prop} (hw : (s.solver x).orWaiting.getLast? = some o)
    (read : ∀ r t, Quiet ((Act.reply x o (payload.map pieces)).apply s) t →
      (∀ p, r.partitionRecieved = some p → payload ≠ none ∧ s.heap.parent o = some p) → Q r t)
    (failed : ∀ e t, Quiet ((Act.reply x o (payload.map pieces)).apply s) t → e ≠ .noFuel → E e t) :
    wp (readPartitions x header payload) Q E s := by
  rw [readPartitions, wp_bind, wp_get]
  simp only [hw]
  rw [wp_bind, wp_modifySolver]
  cases payload with
  | none => exact read _ _ (Quiet.refl _) fun p hp => nomatch hp
  | some text =>
    simp only [Option.map_some] at read failed ⊢
    obtain ⟨r, hr⟩ : ∃ r, s.heap.addAnds o ((pieces text).map assertText) = r := ⟨_, rfl⟩
    have hpar := Heap.addAnds_parent s.heap o ((pieces text).map assertText)
    rcases r with ⟨_ | e, g⟩
    · rw [hr] at hpar
      simp only [hr]
      rw [wp_bind, wp_modifyHeap]
      cases ho : g.parent o with
      | none =>
        refine failed _ _ ?_ (by decide)
        simp only [Act.apply, Heap.reply, hr, ho]
        exact Quiet.refl _
      | some p =>
        simp only
        rw [wp_bind]
        have hp : ∀ q, some p = some q → some text ≠ none ∧ s.heap.parent o = some q := by
          intro q hq
          exact ⟨Option.some_ne_none text, by rw [← hpar, ho, hq]⟩
        have rest : ∀ (r : Received) (t : State), r.partitionRecieved = some p →
            Quiet ((Act.reply x o (some (pieces text))).apply s) t →
            wp (do recount o; return r) Q E t := by
          intro r t hr ht
          rw [wp_bind]
          refine (still_recount o).wp (fun _ u hu => ?_) fun e u hu => failed e u (ht.trans hu)
          exact read _ u (ht.trans hu) fun q hq => hp q (hr.symm.trans hq)
        rw [wp_when]
        refine ⟨fun hk => rest _ _ rfl ?_, fun hk => rest _ _ rfl ?_⟩
        · rw [hr] at hk
          have hc : s.heap.reply o (some (pieces text)) = g.clear o := by
            simp only [Heap.reply, hr, ho, if_neg hk]
          simp only [Act.apply, hc]
          exact Quiet.refl _
        · rw [hr] at hk
          have hc : s.heap.reply o (some (pieces text)) = g := by
            simp only [Heap.reply, hr, ho, if_pos (not_not.mp hk)]
          simp only [Act.apply, hc]
          exact Quiet.refl _
    · have hc : s.heap.reply o (some (pieces text)) = g.clear o := by simp only [Heap.reply, hr]
      simp only [hr]
      refine read _ _ ?_ fun p hp => nomatch hp
      simp only [Act.apply, hc]
      exact Quiet.refl _

/-- A message changes nothing, or it is a status report or a partition reply
about the node that the solver is on. -/
theorem wp_read {header : Header} {payload : Payload} {Q : Received → State → Prop}
    (ignored : ∀ r t, Quiet s t → r.partitionRecieved = none → Q r t)
    (reported : ∀ n status r t, Matches s x n header →
      header.lookup Constant.report = some status.name →
      Quiet ((Act.report x n status).apply s) t → r.partitionRecieved = none → Q r t)
    (replied : ∀ n o r t, Matches s x n header →
      header.lookup Constant.report = some Constant.partitions →
      (s.solver x).orWaiting.getLast? = some o →
      Quiet ((Act.reply x o (payload.map pieces)).apply s) t →
      (∀ p, r.partitionRecieved = some p → payload ≠ none ∧ s.heap.parent o = some p) → Q r t)
    (failed : ∀ n o e t, Matches s x n header →
      header.lookup Constant.report = some Constant.partitions →
      (s.solver x).orWaiting.getLast? = some o →
      Quiet ((Act.reply x o (payload.map pieces)).apply s) t → e ≠ .noFuel → E e t) :
    wp (read x header payload) Q E s := by
  rw [read, wp_bind, wp_get]
  cases hrep : header.lookup Constant.report with
  | none => exact ignored _ _ (Quiet.refl s) rfl
  | some report =>
    cases hn : (s.solver x).node with
    | none => exact ignored _ _ (Quiet.refl s) rfl
    | some n =>
      cases hname : header.lookup Constant.name with
      | none => exact ignored _ _ (Quiet.refl s) rfl
      | some name =>
        cases hpath : header.lookup Constant.node with
        | none => exact ignored _ _ (Quiet.refl s) rfl
        | some path =>
          by_cases hm : (s.heap.label (s.heap.root n)).name ≠ name ∨ render (s.heap.path n) ≠ path
          · simp only [if_pos hm]
            exact ignored _ _ (Quiet.refl s) rfl
          · simp only [if_neg hm]
            have hmat : Matches s x n header := by
              simp only [not_or, not_not] at hm
              exact ⟨hn, hm.1 ▸ hname, hm.2 ▸ hpath⟩
            by_cases hp : report = Constant.partitions ∧ (s.solver x).orWaiting ≠ []
            · rw [if_pos hp]
              obtain ⟨o, ho⟩ : ∃ o, (s.solver x).orWaiting.getLast? = some o :=
                Option.isSome_iff_exists.mp (by simpa using hp.2)
              exact wp_readPartitions ho
                (fun r t ht hr => replied n o r t hmat (hrep.trans (congrArg some hp.1)) ho ht hr)
                fun e t ht => failed n o e t hmat (hrep.trans (congrArg some hp.1)) ho ht
            · rw [if_neg hp]
              cases hs : SolveStatus.ofName? report with
              | none => exact ignored _ _ (Quiet.refl s) rfl
              | some status =>
                simp only
                rw [wp_bind]
                refine wp_readStatus fun t ht => ?_
                exact reported n status _ t hmat
                  (hrep.trans (congrArg some (name_of_ofName? hs))) ht rfl

end Solver

end Smts.Server
