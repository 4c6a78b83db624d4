import Smts.Lib.Trail
import Smts.Server.Paths
import Smts.Server.Receiving
import Smts.Server.Unsent

namespace Smts.Server

open Smts.Lib Smts.Lib.Prog

/-- Nodes keep their parents and their texts. -/
structure Heap.Persists (h g : Heap) : Prop where
  evolves : h.Evolves g
  label : ∀ n, n < h.size → g.label n = h.label n

namespace Heap.Persists

variable {h g k : Heap} {n : NodeId}

theorem of_eq (forest : g.toForest = h.toForest) (label : g.label = h.label) : h.Persists g where
  evolves := by
    obtain ⟨forest', label', attrs'⟩ := g
    cases forest
    exact ⟨Nat.le_refl _, fun _ _ => rfl, (Evolves.refl h).children⟩
  label n _ := by rw [label]

theorem refl (h : Heap) : h.Persists h := of_eq rfl rfl

theorem trans (hg : h.Persists g) (gk : g.Persists k) : h.Persists k where
  evolves := hg.evolves.trans gk.evolves
  label n hn := (gk.label n (Nat.lt_of_lt_of_le hn hg.evolves.size)).trans (hg.label n hn)

theorem addRoot (h : Heap) (l : Label) : h.Persists (h.addRoot l).2 where
  evolves := .addRoot h l
  label _ hn := Function.update_of_ne (Nat.ne_of_lt hn) _ _

theorem newOr {smt : String} {o : NodeId} (hnew : h.newOr n smt = .ok (o, g)) : h.Persists g := by
  rw [Heap.newOr] at hnew
  split at hnew
  · next hp =>
    cases hnew
    exact ⟨.addChild hp.1 (by simp [hp.2]), fun _ hm => Function.update_of_ne (Nat.ne_of_lt hm) _ _⟩
  · cases hnew

theorem newAnd {smt : String} {o : NodeId} (hnew : h.newAnd n smt = .ok (o, g)) : h.Persists g := by
  rw [Heap.newAnd] at hnew
  split at hnew
  · next hp =>
    cases hnew
    exact ⟨.addChild hp.1 (by simp [hp.2]), fun _ hm => Function.update_of_ne (Nat.ne_of_lt hm) _ _⟩
  · cases hnew

theorem addAnds (h : Heap) (o : NodeId) (texts : List String) :
    h.Persists (h.addAnds o texts).2 := by
  induction texts generalizing h with
  | nil => exact refl h
  | cons smt smts ih =>
    rw [Heap.addAnds]
    cases hnew : h.newAnd o smt with
    | error e => exact refl h
    | ok r => exact (newAnd hnew).trans (ih r.2)

theorem clear (h : Heap) (o : NodeId) : h.Persists (h.clear o) where
  evolves := .clear h o
  label _ _ := rfl

theorem setStatus (h : Heap) (n : NodeId) (status : SolveStatus) :
    h.Persists (h.setStatus n status) :=
  of_eq (sameTree_setStatus h n status).forest (sameTree_setStatus h n status).label

theorem fixedpointPartition (h : Heap) (p : HornScript) (root : NodeId) :
    h.Persists (fixedpointPartition p root h).2 := by
  rw [Server.fixedpointPartition]
  cases hnew : h.newOr root p.rewritten with
  | error e => exact refl h
  | ok r => exact (newOr hnew).trans (addAnds r.2 r.1 _)

theorem root (hg : h.Persists g) (hn : n < h.size) : g.root n = h.root n := by
  induction n using Nat.strongRecOn with
  | ind n ih =>
    have hparent := hg.evolves.parent n hn
    cases hp : h.parent n with
    | none => rw [h.root_of_none hp, g.root_of_none (hparent.trans hp)]
    | some p =>
      have hlt := h.parent_lt hp
      rw [h.root_of_parent hp, g.root_of_parent (hparent.trans hp), ih p hlt (Nat.lt_trans hlt hn)]

end Heap.Persists

/-- What only the server itself can see. -/
structure Rest (s t : State) : Prop where
  node : ∀ x, (t.solver x).node = (s.solver x).node
  kind : ∀ x, t.kind x = .solver → s.kind x = .solver
  forest : t.heap.toForest = s.heap.toForest
  label : t.heap.label = s.heap.label
  status : ∀ n, t.heap.status n = s.heap.status n
  sent : t.sent = s.sent
  out : t.out = s.out
  root : ∀ i, t.root i = s.root i

theorem Rest.refl (s : State) : Rest s s :=
  ⟨fun _ => rfl, fun _ h => h, rfl, rfl, fun _ => rfl, rfl, rfl, fun _ => rfl⟩

/-- Messages that were sent in between do not matter. -/
theorem Rest.sending {s t : State} (h : Rest s t) (l : List Sent) :
    Rest { s with sent := s.sent ++ l } { t with sent := t.sent ++ l } :=
  { h with sent := congrArg (· ++ l) h.sent }

/-- A socket object that is not a solver's. -/
theorem Rest.newKind (s : State) (y : SockId) {k : Kind} (hk : k ≠ .solver) :
    Rest s { s with kind := Function.update s.kind y k } := by
  refine { Rest.refl s with kind := fun x hx => ?_ }
  by_cases hy : x = y
  · subst hy
    exact absurd (by simpa using hx) hk
  · simpa [hy] using hx

theorem Rest.trans {s t u : State} (st : Rest s t) (tu : Rest t u) : Rest s u where
  node x := (tu.node x).trans (st.node x)
  kind x h := st.kind x (tu.kind x h)
  forest := tu.forest.trans st.forest
  label := tu.label.trans st.label
  status n := (tu.status n).trans (st.status n)
  sent := tu.sent.trans st.sent
  out := tu.out.trans st.out
  root i := (tu.root i).trans (st.root i)

/-- The commands that change what a client works on, or that split it. -/
def Sent.steers (m : Sent) : Bool :=
  m.places || m.header.lookup Constant.command = some Constant.stop ||
    m.header.lookup Constant.command = some Constant.partition

/-- `Socket.write` does not refuse the message. -/
def Sent.fits (m : Sent) : Bool := m.header.fits m.payload

namespace Solver

/-- The message of `solve`. -/
def solveSent (s : State) (self : SockId) (n : NodeId) (parameters : Header) (smt query : String) :
    Sent :=
  ⟨self, Header.update parameters (header s Constant.solve n ++
    [(Constant.query, query), (Constant.maxMemory, toString s.config.maxMemory)]), smt, some n⟩

/-- The message of `incremental` to a solver on node `a`. -/
def moveSent (s : State) (self : SockId) (a n : NodeId) (smt query : String) : Sent :=
  ⟨self, header s Constant.incremental a ++
    [(Constant.node_, render (s.heap.path n)), (Constant.query, query)], smt, some n⟩

/-- The message of `ask_partitions` to a solver on node `a`. -/
def askSent (s : State) (self : SockId) (a : NodeId) (k : Nat) : Sent :=
  ⟨self, header s Constant.partition a ++
    [(Constant.query, Constant.checkSat), (Constant.partitions, toString k)], "", some a⟩

/-- The message of `stop` to a solver on node `a`. -/
def stopSent (s : State) (self : SockId) (a : NodeId) : Sent :=
  ⟨self, header s Constant.stop a, "", some a⟩

end Solver

/-- A solver is on another node, or on none. -/
def State.put (s : State) (x : SockId) (n : Option NodeId) : State :=
  s.modifySolver x fun d => { d with node := n }

/-- One thing that the server does and that steers no client. -/
inductive Calm : State → State → Prop
  | rest {s t : State} (h : Rest s t) : Calm s t
  | print {s : State} {line : Output} (h : line.verdict? = none) :
      Calm s { s with out := s.out ++ [line] }
  | write {s : State} {m : Sent} (h : m.steers = false) (fits : m.fits = true) :
      Calm s { s with sent := s.sent ++ [m] }

/-- One thing that the server does when it calls `entrust`, with what solvers and users see
of it. -/
inductive Deed : State → State → Prop
  | calm {s t : State} (h : Calm s t) : Deed s t
  | verdict {s : State} (i : InstId) (filename : Option String) (runtime : Option Time) :
      Deed s { s with out := s.out ++ [.verdict i (s.heap.status (s.root i)) filename runtime] }
  | stop {s : State} {x : SockId} {a : NodeId} (h : (s.solver x).node = some a)
      (fits : (Solver.stopSent s x a).fits = true) :
      Deed s { s.put x none with sent := s.sent ++ [Solver.stopSent s x a] }
  | solve {s : State} {x : SockId} {n : NodeId} {parameters : Header} {smt query : String}
      (h : (s.solver x).node = none)
      (script : s.heap.toString (s.heap.root n) n none = .ok (smt, query))
      (fits : (Solver.solveSent s x n parameters smt query).fits = true) :
      Deed s { s.put x n with sent := s.sent ++ [Solver.solveSent s x n parameters smt query] }
  | move {s : State} {x : SockId} {a n : NodeId} {smt query : String}
      (h : (s.solver x).node = some a)
      (script : s.heap.toString (s.heap.root a) n (some a) = .ok (smt, query))
      (fits : (Solver.moveSent s x a n smt query).fits = true) :
      Deed s { s.put x n with sent := s.sent ++ [Solver.moveSent s x a n smt query] }
  | ask {s : State} {x : SockId} {a : NodeId} (k : Nat) (h : (s.solver x).node = some a)
      (fits : (Solver.askSent s x a k).fits = true) :
      Deed s { s with sent := s.sent ++ [Solver.askSent s x a k] }
  | grow {s : State} {g : Heap} (h : s.heap.Persists g)
      (status : ∀ n, n < s.heap.size → g.status n = s.heap.status n)
      (new : ∀ n, s.heap.size ≤ n → n < g.size → g.isOr n = true) : Deed s { s with heap := g }

theorem Deed.rest {s t : State} (h : Rest s t) : Deed s t := .calm (.rest h)

/-- A command that was not sent, since this was raised before or by `Socket.write`: the solver is
taken off its node, or put on one, all the same. -/
inductive Lost (e : Exn) (x : SockId) : State → State → Prop
  | stop {s t : State} {a : NodeId} (h : (s.solver x).node = some a)
      (why : e = .osError ∨ t.sock x = none ∨ (Solver.stopSent s x a).fits = false)
      (rest : Rest (s.put x none) t) : Lost e x s t
  | solve {s t : State} {n : NodeId} (h : (s.solver x).node = none) (rest : Rest (s.put x n) t) :
      Lost e x s t

/-- What may come last in a program that raises. -/
def Fails (e : Exn) (s t : State) : Prop := ∃ x, Lost e x s t

/-- Whatever steers no client is among the steps. -/
class Admits (r : State → State → Prop) : Prop where
  calm : ∀ {s t}, Calm s t → r s t

instance : Admits Deed := ⟨.calm⟩

section Primitives

variable {α : Type} {r : State → State → Prop} {f : Exn → State → State → Prop} [Admits r] {s : State}

theorem admitted {t : State} (h : Rest s t) : Relation.ReflTransGen r s t :=
  .single (Admits.calm (.rest h))

theorem trail_modify {g : State → State} (h : ∀ s, Rest s (g s)) :
    Trail r f (modify g : M Unit) :=
  .modify fun s => Admits.calm (.rest (h s))

@[simp] theorem trail_now : Trail r f now := fun s => admitted { Rest.refl s with }

@[simp] theorem trail_random : Trail r f random := fun s => admitted { Rest.refl s with }

@[simp] theorem trail_inOrder (xs : List SockId) : Trail r f (inOrder xs) :=
  fun s => admitted { Rest.refl s with }

@[simp] theorem trail_print {line : Output} (h : line.verdict? = none) : Trail r f (print line) :=
  .modify fun _ => Admits.calm (.print h)

@[simp] theorem trail_modifyConfig (g : Config → Config) : Trail r f (modifyConfig g) :=
  trail_modify fun s => { Rest.refl s with }

theorem Rest.modifyNode (s : State) (n : NodeId) {g : Attrs → Attrs}
    (h : ∀ a, (g a).status = a.status) : Rest s { s with heap := s.heap.modify n g } := by
  refine { Rest.refl s with status := fun m => ?_, forest := rfl, label := rfl }
  rw [Heap.modify_status]
  split
  · next he => rw [h, he]; rfl
  · rfl

theorem trail_modifyNode (n : NodeId) {g : Attrs → Attrs} (h : ∀ a, (g a).status = a.status) :
    Trail r f (modifyNode n g) :=
  trail_modify fun s => Rest.modifyNode s n h

theorem Rest.modifySolver (s : State) (x : SockId) {g : SolverData → SolverData}
    (h : ∀ d, (g d).node = d.node) : Rest s (s.modifySolver x g) := by
  refine { Rest.refl s with node := fun y => ?_ }
  simp only [State.modifySolver, Function.update_apply]
  split
  · next he => rw [h, he]
  · rfl

theorem trail_modifySolver (x : SockId) {g : SolverData → SolverData}
    (h : ∀ d, (g d).node = d.node) : Trail r f (modifySolver x g) :=
  trail_modify fun s => Rest.modifySolver s x h

theorem trail_modifyInst (i : InstId) {g : Instance → Instance} (h : ∀ d, (g d).root = d.root) :
    Trail r f (modifyInst i g) := by
  refine trail_modify fun s => { Rest.refl s with root := fun j => ?_ }
  simp only [State.root, Function.update_apply]
  split
  · next he => rw [h, he]
  · rfl

/-- A write either fails and leaves everything as it is, or it sends the message. -/
theorem wp_write_deed {x : SockId} {header : Header} {payload : String} {about : Option NodeId}
    {Q : Unit → State → Prop} {E : Exn → State → Prop}
    (sent : ∀ w, header.fits payload = true →
      Q () { s with world := w, sent := s.sent ++ [⟨x, header, payload, about⟩] })
    (failed : ∀ e t, Rest s t → e = .osError ∨ t.sock x = none ∨ header.fits payload = false →
      E e t) : wp (write x header payload about) Q E s := by
  cases hs : s.sock x with
  | none => simpa [wp, write, hs] using failed .attributeError s (.refl s) (.inr (.inl hs))
  | some c =>
    by_cases hf : header.fits payload = true
    · by_cases ho : (s.isOpen c && s.world.env.writeOk s.world.writeTick) = true
      · simp only [wp, write, hs, hf, ho, if_true]
        exact sent _ hf
      · simp only [wp, write, hs, hf, ho, if_true]
        exact failed _ _ { Rest.refl s with } (.inl rfl)
    · rw [Bool.not_eq_true] at hf
      simpa [wp, write, hs, hf] using failed .valueError s (.refl s) (.inr (.inr hf))

@[simp] theorem trail_write {x : SockId} {header : Header} {payload : String} {about : Option NodeId}
    (h : Sent.steers ⟨x, header, payload, about⟩ = false) :
    Trail r f (write x header payload about) := by
  refine fun s => wp_write_deed (fun w hf => ?_) fun e t ht _ => ⟨t, admitted ht, .inl rfl⟩
  have rest : Rest s { s with world := w } := { Rest.refl s with }
  exact .tail (admitted rest) (Admits.calm (.write h hf))

@[simp] theorem trail_setLemmaServer (x : SockId) (l : Option SockId) :
    Trail r f (Solver.setLemmaServer x l) :=
  .bind .get fun _ => trail_write (by simp [Sent.steers, Sent.places, Constant.command,
    Constant.lemmas, Constant.solve, Constant.incremental, Constant.stop, Constant.partition])

@[simp] theorem trail_lemmaServer : Trail r f lemmaServer := .bind .get fun _ => by simp

@[simp] theorem trail_solvers (w : Which) : Trail r f (solvers w) := .bind .get fun _ => by simp

@[simp] theorem trail_closeSocket (x : SockId) : Trail r f (closeSocket x) := by
  intro s
  cases hs : s.sock x with
  | none =>
    have hr : closeSocket x s = (.error .attributeError, s) := by simp [closeSocket, hs]
    exact wp_of_run (fun _ _ ht => by rw [hr] at ht; cases ht)
      fun e t ht => by rw [hr] at ht; cases ht; exact ⟨s, .refl, .inl rfl⟩
  | some c =>
    refine wp_of_run (fun _ t ht => ?_) fun e t ht => ?_
    · simp only [closeSocket, hs, Prod.mk.injEq, true_and] at ht
      subst ht
      exact admitted { Rest.refl s with }
    · simp [closeSocket, hs] at ht

@[simp] theorem trail_closeServer : Trail r f closeServer := by
  refine .bind .get fun _ => .bind (by simp) fun l => .forEach (fun x => ?_) _
  exact .bind (trail_modify fun s => { Rest.refl s with }) fun _ => by simp

end Primitives

/-- A program whose steps are deeds. -/
abbrev Deeds {α : Type} (m : M α) : Prop := Trail Deed Fails m

section Methods

variable {s t u : State} {x : SockId} {n : NodeId}

theorem Rest.put (h : Rest s t) (x : SockId) (n : Option NodeId) : Rest (s.put x n) (t.put x n) where
  kind := h.kind
  node y := by
    by_cases hy : y = x
    · subst hy
      simp [State.put, State.modifySolver]
    · simpa [State.put, State.modifySolver, hy] using h.node y
  forest := h.forest
  label := h.label
  status := h.status
  sent := h.sent
  out := h.out
  root := h.root

/-- The same but for what a solver knows besides its node. -/
theorem Rest.of_put {f : SolverData → SolverData} {n : Option NodeId} (h : ∀ d, (f d).node = n) :
    Rest (s.put x n) (s.modifySolver x f) := by
  refine { Rest.refl (s.put x n) with node := fun y => ?_ }
  by_cases hy : y = x
  · subst hy
    simp [State.put, State.modifySolver, h]
  · simp [State.put, State.modifySolver, hy]

@[simp] theorem deeds_stop (x : SockId) : Deeds (Solver.stop x) := by
  intro s
  rw [Solver.stop, wp_bind, wp_get]
  cases hn : (s.solver x).node with
  | none => exact ⟨s, .refl, .inl rfl⟩
  | some a =>
    have reset : Rest (s.put x none) (s.modifySolver x Solver.reset) := Rest.of_put fun _ => rfl
    rw [wp_bind, wp_modifySolver]
    refine wp_write_deed (fun w hf => ?_) fun e t ht why =>
      ⟨s, .refl, .inr ⟨x, .stop hn why (reset.trans ht)⟩⟩
    exact .tail (.single (.stop hn hf)) (.rest { reset with sent := rfl })

@[simp] theorem deeds_terminate (x : SockId) : Deeds (Solver.terminate x) := by
  refine .bind .get fun s => ?_
  split
  · exact .raise _
  · exact trail_write (by simp [Sent.steers, Sent.places, Solver.header, Constant.command,
      Constant.terminate, Constant.solve, Constant.incremental, Constant.stop, Constant.partition])

theorem rest_markStarted :
    wp (Solver.markStarted n) (fun _ t => Rest s t) (fun _ _ => False) s := by
  rw [Solver.markStarted, wp_bind, wp_get, wp_when]
  refine ⟨fun _ => ?_, fun _ => .refl s⟩
  rw [wp_bind, wp_now, wp_modifyNode]
  have stamped := Rest.modifyNode s n (g := fun a =>
    { a with started := some (s.world.env.clock s.world.clockTick) }) fun _ => rfl
  exact { stamped with }

@[simp] theorem deeds_markStarted (n : NodeId) : Deeds (Solver.markStarted n) :=
  fun _ => wp_mono rest_markStarted (fun _ _ ht => .single (.rest ht)) fun _ _ h => h.elim

theorem wp_assign_deeds {parameters : Header} (h : (s.solver x).node = none) :
    wp (Solver.assign x n parameters) (fun _ t => Relation.ReflTransGen Deed s t)
      (fun e t => ∃ u, Relation.ReflTransGen Deed s u ∧ (u = t ∨ Fails e u t)) s := by
  have placed : Rest (s.put x n)
      (s.modifySolver x fun d => { d with node := some n, parameters := parameters }) :=
    Rest.of_put fun _ => rfl
  rw [Solver.assign, wp_bind, wp_modifySolver, wp_bind, wp_get, wp_bind]
  cases hscript : s.heap.toString (s.heap.root n) n none with
  | error e => exact ⟨s, .refl, .inr ⟨x, .solve h placed⟩⟩
  | ok r =>
    obtain ⟨smt, query⟩ := r
    rw [wp_ofExcept_ok, wp_bind]
    refine wp_write_deed (fun w hf => ?_) fun e t ht _ =>
      ⟨s, .refl, .inr ⟨x, .solve h (placed.trans ht)⟩⟩
    have stamp : Deeds (do
        let t ← now
        modifySolver x fun d => { d with started := some t }
        Solver.markStarted n) :=
      .bind (by simp) fun t => .bind (trail_modifySolver x fun _ => rfl) fun _ => by simp
    refine Trail.after ?_ stamp
    exact .tail (.single (.solve h hscript hf)) (.rest { placed with sent := rfl })

@[simp] theorem deeds_solve (x : SockId) (n : NodeId) (parameters : Header) :
    Deeds (Solver.solve x n parameters) := by
  intro s
  rw [Solver.solve, wp_bind, wp_get, wp_bind, wp_when]
  refine ⟨fun _ => ?_, fun h => wp_assign_deeds (not_not.mp h)⟩
  have stopped : wp (Solver.stop x) (fun _ t => (t.solver x).node = none) (fun _ _ => True) s :=
    wp_mono Solver.wp_stop_data (fun _ t ht => by rw [ht.1]; rfl) fun _ _ _ => trivial
  refine wp_mono (wp_and (deeds_stop x s) stopped) (fun _ t ht => ?_) fun _ _ ht => ht.1
  refine wp_mono (wp_assign_deeds ht.2) (fun _ _ hu => ht.1.trans hu) fun _ _ hu => ?_
  obtain ⟨v, hv, hf⟩ := hu
  exact ⟨v, ht.1.trans hv, hf⟩

@[simp] theorem deeds_incremental (x : SockId) (n : NodeId) : Deeds (Solver.incremental x n) := by
  intro s
  rw [Solver.incremental, wp_bind, wp_get]
  cases hn : (s.solver x).node with
  | none => exact ⟨s, .refl, .inl rfl⟩
  | some a =>
    rw [wp_bind]
    cases hscript : s.heap.toString (s.heap.root a) n (some a) with
    | error e => exact ⟨s, .refl, .inl rfl⟩
    | ok r =>
      obtain ⟨smt, query⟩ := r
      rw [wp_ofExcept_ok, wp_bind]
      refine wp_write_deed (fun w hf => ?_) fun e t ht _ => ⟨t, .single (.rest ht), .inl rfl⟩
      rw [wp_bind, wp_modifySolver, wp_bind, wp_now, wp_bind, wp_modifySolver, wp_bind]
      refine wp_mono rest_markStarted (fun _ t ht => ?_) fun _ _ h => h.elim
      refine .tail (.single (.move hn hscript hf)) (.rest ?_)
      refine ⟨fun y => ?_, ht.kind, ht.forest, ht.label, ht.status, ht.sent, ht.out, ht.root⟩
      by_cases hy : y = x
      · subst hy
        simp [State.put, State.modifySolver]
      · simpa [State.put, State.modifySolver, hy] using ht.node y

@[simp] theorem deeds_askPartitions (x : SockId) (k : Nat) : Deeds (Solver.askPartitions x k) := by
  refine .bind (by simp) fun _ => fun s => ?_
  rw [wp_bind, wp_get]
  cases hn : (s.solver x).node with
  | none => exact ⟨s, .refl, .inl rfl⟩
  | some a =>
    rw [wp_bind]
    refine wp_write_deed (fun w hf => ?_) fun e t ht _ => ⟨t, .single (.rest ht), .inl rfl⟩
    have asked : Relation.ReflTransGen Deed s
        { s with world := w, sent := s.sent ++ [Solver.askSent s x a k] } :=
      .tail (.single (.ask k hn hf)) (.rest { Rest.refl _ with })
    rw [wp_bind, wp_get, wp_bind]
    cases hnew : s.heap.newOr a with
    | error e => exact ⟨_, asked, .inl rfl⟩
    | ok r =>
      obtain ⟨o, h⟩ := r
      have status (m : NodeId) (hm : m < s.heap.size) : h.status m = s.heap.status m := by
        rw [Heap.newOr] at hnew
        split at hnew
        · cases hnew
          simp [Heap.status, Function.update_of_ne (Nat.ne_of_lt hm)]
        · cases hnew
      have new (m : NodeId) (hm : s.heap.size ≤ m) (hlt : m < h.size) : h.isOr m = true := by
        rw [Heap.newOr] at hnew
        split at hnew
        · cases hnew
          obtain rfl : m = s.heap.size := Nat.le_antisymm (Nat.le_of_lt_succ hlt) hm
          simp [Heap.isOr]
        · cases hnew
      have marks : Deeds (do
          modifyNode a fun b => { b with partitioning := true }
          modifySolver x fun d => { d with orWaiting := d.orWaiting ++ [o] } : M Unit) :=
        .bind (trail_modifyNode a fun _ => rfl) fun _ => trail_modifySolver x fun _ => rfl
      rw [wp_ofExcept_ok, wp_bind]
      exact Trail.after (asked.tail (.grow (.newOr hnew) status new)) marks

end Methods

section Entrust

@[simp] theorem deeds_idle (l : State → List SockId) :
    Deeds (modify fun s => { s with idleSolvers := l s } : M Unit) :=
  trail_modify fun s => { Rest.refl s with }

@[simp] theorem deeds_configEntrust (name : String) (workers : Nat) :
    Deeds (configEntrust name workers) := by
  refine .bind .get fun s => .bind (.foldEach (fun h e => ?_) _ _) fun fixed =>
    .ite (by simp) (.ite (by simp) (by simp))
  refine .ite ?_ (by simp)
  split
  · simp
  · exact .bind (by simp) fun _ => by simp

@[simp] theorem deeds_whenTimeout (i : InstId) : Deeds (whenTimeout i) := by
  refine .bind .get fun s => ?_
  split
  · simp
  · simp

@[simp] theorem deeds_levelChildren (level : Nat) : Deeds (levelChildren level) := by
  refine .bind .get fun s => ?_
  split
  · simp
  · simp

@[simp] theorem deeds_solversOn (root : NodeId) : Deeds (solversOn root) :=
  .bind (by simp) fun _ => .bind .get fun _ => .ite (by simp) (by simp)

@[simp] theorem deeds_resetLemmas (x : SockId) (root : NodeId) : Deeds (resetLemmas x root) :=
  .bind .get fun _ => trail_write rfl

@[simp] theorem deeds_stuck (i : InstId) : Deeds (stuck i) := by
  refine .bind .get fun s => .ite (.bind (.ofExcept _) fun childs => .ite ?_ (by simp)) (by simp)
  refine .bind (trail_print rfl) fun _ => .bind (by simp) fun l => .bind (by simp) fun _ => ?_
  exact .bind (trail_modify fun s => { Rest.refl s with }) fun _ => by simp

@[simp] theorem deeds_printResult (i : InstId) : Deeds (printResult i) := by
  intro s
  have clocked : Rest s { s with world := { s.world with clockTick := s.world.clockTick + 1 } } :=
    { Rest.refl s with }
  rw [printResult, wp_bind, wp_get, wp_bind, wp_now]
  cases (s.inst i).started with
  | none => exact ⟨_, .single (.rest clocked), .inl rfl⟩
  | some started =>
    have last (name : String) : Deeds (do
        if (s.trees.lookup name).isSome then
          modify fun s => { s with trees := s.trees.filter fun e => e.1 ≠ name }
        else raise .keyError : M Unit) :=
      .ite (trail_modify fun s => { Rest.refl s with }) (by simp)
    dsimp only
    split
    · rw [wp_bind, wp_print]
      refine Trail.after ?_ (last _)
      exact .tail (.single (.rest clocked)) (.verdict i _ _)
    · exact Trail.after (.single (.rest clocked)) (trail_print rfl)

@[simp] theorem deeds_release (i : InstId) : Deeds (release i) := by
  have gone : Deeds (modify fun s => { s with current := none, idleSolvers := [] } : M Unit) :=
    trail_modify fun s => { Rest.refl s with }
  refine .bind .get fun s => .bind (by simp) fun l => .bind (by simp) fun _ =>
    .bind (by simp) fun l => ?_
  split
  · exact .bind (by simp) fun _ => gone
  · exact gone

@[simp] theorem deeds_conclude (i : InstId) : Deeds (conclude i) := by
  have rest (returned : Bool) : Deeds (if returned then return true else do
      printResult i
      release i
      return false : M Bool) :=
    .ite (by simp) (.bind (by simp) fun _ => .bind (by simp) fun _ => by simp)
  refine .bind .get fun s => .ite (.bind (by simp) fun b => .ite (rest true) ?_) (rest false)
  exact .bind (.when (by simp)) fun _ => rest false

@[simp] theorem deeds_isOver (i : InstId) : Deeds (isOver i) :=
  .bind .get fun _ => .ite (by simp) (by simp)

@[simp] theorem deeds_startSolver (i : InstId) (x : SockId) : Deeds (startSolver i x) := by
  refine .bind .get fun s => .bind (by simp) fun h =>
    .bind (trail_modify fun s => { Rest.refl s with }) fun _ => ?_
  refine .bind .get fun s => .bind (by simp) fun _ => .bind .get fun s => .when ?_
  exact .bind (by simp) fun _ => trail_modifyInst i fun _ => rfl

@[simp] theorem deeds_schedulables : Deeds schedulables := by
  refine .bind .get fun s => .foldEach (fun acc e => .bind .get fun s => .ite ?_ (by simp)) _ _
  refine .bind (by simp) fun t => ?_
  split
  · simp
  · simp

@[simp] theorem deeds_startNext : Deeds startNext := by
  refine .bind deeds_schedulables fun l => ?_
  split
  · simp
  · refine .bind (trail_modify fun s => { Rest.refl s with }) fun _ =>
      .bind (trail_modify fun s => { Rest.refl s with }) fun _ => ?_
    refine .bind (by simp) fun l => .bind (.forEach (fun x => ?_) _) fun _ => by simp
    exact .bind (by simp) fun _ => by simp

@[simp] theorem deeds_welcome (i : InstId) : Deeds (welcome i) := by
  refine .bind .get fun s => .bind (by simp) fun l => .forEach (fun x => ?_) _
  exact .bind (trail_modify fun s => { Rest.refl s with }) fun _ => by simp

@[simp] theorem deeds_allDone (solving : Option InstId) : Deeds (allDone solving) :=
  .bind .get fun _ => .when (.when (.when (.bind (by simp) fun _ => by simp)))

@[simp] theorem deeds_collectSolver (acc : List SockId) (x : SockId) :
    Deeds (collectSolver acc x) :=
  .bind .get fun _ => .ite (.bind (by simp) fun _ => by simp) (.bind (by simp) fun _ => by simp)

@[simp] theorem deeds_addIdle (counted : Bool) (x : SockId) : Deeds (addIdle counted x) :=
  .bind .get fun _ => .when (.bind (by simp) fun _ => .when (by simp))

@[simp] theorem deeds_passUnsat (n : NodeId) (solved : List SockId) :
    Deeds (passUnsat n solved) := by
  have rest (solved : List SockId) : Deeds (collectAt n solved) :=
    .bind (trail_modifyNode n fun _ => rfl) fun _ => .bind (by simp) fun l =>
      .foldEach (fun _ _ => by simp) _ _
  refine .bind .get fun s => ?_
  dsimp only
  split
  · exact .bind (by simp) rest
  · next g _ =>
    refine .ite (.bind (by simp) fun l => ?_) (.bind (by simp) rest)
    exact .bind (.foldEach (fun _ _ => by simp) _ _) fun _ =>
      .bind (trail_modifyNode g fun _ => rfl) fun _ => .bind (by simp) rest

@[simp] theorem deeds_passTimeout (n : NodeId) : Deeds (passTimeout n) := by
  have rest (s : State) (split : Bool) : Deeds (
      if split = true then retire n (!(s.heap.attrs n).assumedTimout)
      else when ((s.heap.attrs n).assumedTimout = false) (suspend n)) := by
    refine .ite (.bind (by simp) fun l => ?_) (.when (.bind (by simp) fun l => ?_))
    · exact .bind (by simp) fun _ => .bind (trail_modifyNode n fun _ => rfl) fun _ =>
        trail_modifyNode n fun _ => rfl
    · exact .bind (by simp) fun _ => trail_modifyNode n fun _ => rfl
  refine .bind .get fun s => .ite ?_ (.bind (by simp) (rest s))
  split
  · exact .bind (by simp) (rest s)
  · exact .bind (by simp) (rest s)

@[simp] theorem deeds_timedOut (n : NodeId) : Deeds (timedOut n) := by
  refine .bind .get fun s => ?_
  split
  · simp
  · simp

@[simp] theorem deeds_chooseNodeTimeout (i : InstId) : Deeds (chooseNodeTimeout i) := by
  refine .bind .get fun s => .bind (by simp) fun t => ?_
  split
  · simp
  · exact .ite (by simp) (.bind (by simp) fun _ => by simp)

@[simp] theorem deeds_passNode (i : InstId) (acc : Pass) (n : NodeId) :
    Deeds (passNode i acc n) := by
  have rest (solved : List SockId) : Deeds (aim acc n solved) :=
    .bind .get fun _ => .ite (by simp) (by simp)
  refine .bind .get fun s => .ite (.bind (.when (by simp)) fun _ => ?_) (by simp)
  refine .ite (.bind (by simp) rest) (.bind (by simp) fun late => .ite ?_ ?_)
  · exact .bind (by simp) fun _ => .bind (by simp) rest
  · exact .bind .get fun s => .bind (.when (by simp)) fun _ => .bind (by simp) rest

@[simp] theorem deeds_relocateTo (solved : List SockId) (child : NodeId) :
    Deeds (relocateTo solved child) := by
  refine .bind .get fun s => ?_
  dsimp only
  split
  · simp
  · refine .bind (by simp) fun l => ?_
    split
    · simp
    · exact .bind (by simp) fun _ => by simp

@[simp] theorem deeds_relocate (fuel : Nat) (i : InstId) (solved : List SockId) :
    Deeds (relocate fuel i solved) :=
  .bind .get fun s => .when (.bind (.ofExcept _) fun childs =>
    .whileNonempty (fun l => .foldEach (fun _ _ => by simp) _ _) _ _)

@[simp] theorem deeds_survey (fuel : Nat) (i : InstId) : Deeds (survey fuel i) := by
  refine .bind .get fun s => .bind (.foldEach (fun acc n => by simp) _ _) fun pass => ?_
  exact .bind (by simp) fun _ => by simp

@[simp] theorem deeds_partition (n : NodeId) : Deeds (partition n) := by
  have askFirst (l : List SockId) : Deeds (askFirst n l) := by
    induction l with
    | nil => exact .pure false
    | cons x xs ih =>
      refine .bind .get fun s => ?_
      split
      · refine .bind (by simp) fun t => .ite (.bind (by simp) fun k => ?_) ih
        exact .bind (by simp) fun _ => by simp
      · simp
  have partitionLoop (k : Nat) : Deeds (partitionLoop n k) := by
    induction k with
    | zero => exact .pure false
    | succ k ih =>
      exact .bind (by simp) fun l => .bind (askFirst l) fun b => .ite (by simp) ih
  exact .bind .get fun s => .bind (by simp) fun k => partitionLoop _

@[simp] theorem deeds_pickIdle (leaf : NodeId) (l : List SockId) : Deeds (pickIdle leaf l) := by
  induction l with
  | nil => exact .pure none
  | cons x xs ih =>
    refine .bind .get fun s => ?_
    split
    · simp
    · exact .ite (by simp) (.ite (by simp) (.ite (by simp) ih))

@[simp] theorem deeds_reassign (nodes : List NodeId) (pass : Pass) :
    Deeds (reassign nodes pass) := by
  have reassignTo (leaf : NodeId) : Deeds (reassignTo leaf) := by
    refine .bind .get fun s => .when (.bind (by simp) fun x => ?_)
    split
    · simp
    · exact .bind (by simp) fun _ => by simp
  have sendIdle (target : NodeId) : Deeds (sendIdle target) := by
    refine .bind .get fun s => .ite (by simp) (.bind (by simp) fun _ => ?_)
    refine .bind .get fun s => ?_
    split
    · simp
    · exact .when (.bind (by simp) fun _ => by simp)
  refine .bind .get fun s => .when (.bind (.forEach reassignTo _) fun _ => .bind .get fun s => ?_)
  refine .bind (.when (by simp)) fun _ => ?_
  split
  · exact .when (sendIdle _)
  · simp

@[simp] theorem deeds_spread (fuel : Nat) (p : PNode) : Deeds (spread fuel p) := by
  have movableSolvers : Deeds (movableSolvers p) := by
    refine .bind .get fun s => .ite ?_ (by simp)
    split
    · simp
    · exact .foldEach (fun acc m => .bind (by simp) fun xs => .bind .get fun s => by simp) _ _
  refine .bind movableSolvers fun l => .whileNonempty (fun l => ?_) _ _
  refine .bind .get fun s => .bind (.ofExcept _) fun childs => .foldEach (fun l n => ?_) _ _
  cases l with
  | nil => exact .pure _
  | cons x xs => exact .bind (by simp) fun _ => .pure _

@[simp] theorem deeds_distribute (fuel : Nat) (i : InstId) (p : Option PNode) (nodes : List NodeId)
    (pass : Pass) : Deeds (distribute fuel i p nodes pass) := by
  have redistribute : Deeds (redistribute i nodes pass) := by
    refine .bind (by simp) fun _ => .bind .get fun s => .ite ?_ (by simp)
    cases pass.toPartition with
    | some n => exact .when (.bind (by simp) fun _ => by simp)
    | none => simp
  cases p with
  | some p => exact .bind (by simp) fun _ => redistribute
  | none => exact redistribute

/-- Calling `entrust` prints what the trees say and talks to the solvers.  The statuses stay. -/
theorem deeds_entrust (fuel : Nat) (p : Option PNode) : Deeds (entrust fuel p) := by
  have settle (solving : Option InstId) : Deeds (settle solving) := by
    cases solving with
    | none => exact .pure _
    | some i => exact .bind (by simp) fun _ => .ite (by simp) (.pure _)
  have proceed (solving : Option InstId) (returned : Bool) : Deeds (proceed solving returned) := by
    refine .ite (by simp) (.bind (by simp) fun current => ?_)
    cases current with
    | none =>
      refine .bind deeds_startNext fun started => ?_
      cases started with
      | true => exact .pure _
      | false => exact .bind (deeds_allDone solving) fun _ => .pure _
    | some i => exact .bind (deeds_welcome i) fun _ => .bind .get fun s => .pure _
  have attend : Deeds attend := by
    rw [attend]
    exact .bind (.gets _) fun solving => .bind (settle solving) (proceed solving)
  refine .bind attend fun r => ?_
  cases r with
  | none => simp
  | some i => exact .bind (by simp) fun r => deeds_distribute fuel i p r.1 r.2

end Entrust

end Smts.Server
