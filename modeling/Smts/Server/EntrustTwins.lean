import Smts.Server.Attending
import Smts.Server.SolverTwins
import Smts.Server.Wiring

namespace Smts.Server

open Smts.Lib Smts.Lib.Prog

/-- The same argument of `solvers`, for the other heap. -/
def Which.rename (f : NodeId → NodeId) : Which → Which
  | .all => .all
  | .busy => .busy
  | .at n => .at (n.map f)

/-- What is left of `startNext` once the instance has been picked. -/
def starting (i : InstId) : M Bool := do
  modify fun s => { s with current := some i }
  modify fun s => { s with totalSolvers := (s.solvers .all).length }
  forEach (fun x => do
    startSolver i x
    modifyConfig fun c => { c with partitionCount := 0 }) (← solvers (.at none))
  return true

namespace Twin

variable {L : Link} {p : Marks} {s t : State} {x : SockId} {n : NodeId} {i : InstId}
  {α β : Type}

theorem inj (h : Twin L p s t) {m n : NodeId} : L.node m = L.node n ↔ m = n := h.heap.inj

section Asking

theorem holds (h : Twin L p s t) (hx : L.live x) (w : Which) :
    (w.rename L.node).holds (t.solver x) = w.holds (s.solver x) := by
  have hd := (h.solver x hx).node
  cases w with
  | all => rfl
  | busy => simp only [Which.rename, Which.holds, hd, Option.isSome_map]
  | «at» n =>
    have hiff : (s.solver x).node.map L.node = n.map L.node ↔ (s.solver x).node = n :=
      (Option.map_injective h.heap.mono.injective).eq_iff
    simp only [Which.rename, Which.holds, hd, hiff]

theorem solvers_eq (h : Twin L p s t) (w : Which) :
    t.solvers (w.rename L.node) = s.solvers w := by
  rw [State.solvers, State.solvers, h.rlist, h.kind]
  refine List.filter_congr fun x hx => ?_
  by_cases hk : s.kind x = .solver
  · rw [h.holds (h.joined x ⟨hx, hk⟩)]
  · simp only [hk, decide_false, Bool.false_and]

theorem live_of_solvers (h : Twin L p s t) {w : Which} (hx : x ∈ s.solvers w) : L.live x :=
  h.joined x (State.mem_solvers.mp hx).1

theorem newlyJoint_eq (h : Twin L p s t) : t.newlyJointSolver = s.newlyJointSolver := by
  rw [State.newlyJointSolver, State.newlyJointSolver, h.rlist, h.kind]
  refine List.filter_congr fun x hx => ?_
  by_cases hk : s.kind x = .solver
  · have hd := h.solver x (h.joined x ⟨hx, hk⟩)
    simp only [hd.node, hd.started, Option.map_eq_none_iff]
  · simp only [hk, decide_false, Bool.false_and]

theorem bind_inOrder {xs : List SockId} {f : List SockId → M α} {f' : List SockId → M β}
    {R : α → β → State → State → Prop} (h : Twin L p s t)
    (hf : ∀ ys u v, ys.Perm xs → Twin L p u v → Coupled (f ys) (f' ys) R (Like L) u v) :
    Coupled (Server.inOrder xs >>= f) (Server.inOrder xs >>= f') R (Like L) s t := by
  refine Coupled.bind (h.inOrder xs) fun ys zs u v hu => ?_
  rw [hu.2.1]
  exact hf ys u v hu.1 hu.2.2

theorem solvers (h : Twin L p s t) (w : Which) :
    Coupled (solvers w) (solvers (w.rename L.node))
      (fun xs ys u v => xs.Perm (s.solvers w) ∧ Kept L p xs ys u v) (Like L) s t := by
  refine Coupled.get ?_
  rw [h.solvers_eq]
  exact h.inOrder _

/-- Both servers go on with the same solvers in the same order. -/
theorem bind_solvers {w : Which} {f : List SockId → M α} {f' : List SockId → M β}
    {R : α → β → State → State → Prop} (h : Twin L p s t)
    (hf : ∀ xs u v, (∀ x ∈ xs, L.live x) → Twin L p u v → Coupled (f xs) (f' xs) R (Like L) u v) :
    Coupled (Server.solvers w >>= f) (Server.solvers (w.rename L.node) >>= f') R (Like L) s t := by
  refine Coupled.bind (h.solvers w) fun xs ys u v hu => ?_
  rw [hu.2.1]
  exact hf xs u v (fun x hx => h.live_of_solvers (hu.1.mem_iff.mp hx)) hu.2.2

theorem match_lemmaServer (h : Twin L p s t) :
    Match L p lemmaServer lemmaServer s t := by
  refine Coupled.get ?_
  rw [h.rlist, h.kind]
  exact h.bind_inOrder fun xs u v _ hu => hu.match_pure _

theorem match_levelChildren (h : Twin L p s t) (level : Nat) :
    Match L p (levelChildren level) (levelChildren level) s t := by
  refine Coupled.get ?_
  rw [h.config]
  cases s.config.partitionPolicy[level % s.config.partitionPolicy.length]? with
  | none => exact Coupled.raise h.like
  | some j => exact h.match_pure j

theorem match_whenTimeout (h : Twin L p s t) (hi : i < p.insts) :
    Match L p (whenTimeout i) (whenTimeout (L.inst i)) s t := by
  refine Coupled.get ?_
  rw [h.inst_eq hi]
  cases truthy (s.inst i).started with
  | none => exact h.match_pure _
  | some started =>
    cases (s.inst i).timeout with
    | none => exact h.match_pure _
    | some timeout => exact Match.bind h.match_now fun time u v hu => hu.match_pure _

theorem match_configEntrust (h : Twin L p s t) (solverName : String) (workers : Nat) :
    Match L p (configEntrust solverName workers) (configEntrust solverName workers) s t := by
  refine Coupled.get ?_
  rw [h.config]
  refine Coupled.bind (h.fold (V := fun a b => b = a) (P := fun _ => True) (fun _ _ => trivial)
    (fun a b e u v hab _ hu => ?_) rfl) fun fixed _ u v ⟨hfixed, hu⟩ => ?_
  · subst hab
    refine Coupled.ite Iff.rfl (fun _ => ?_) fun _ => Coupled.pure ⟨rfl, hu⟩
    cases e.2 with
    | text value => exact Coupled.pure ⟨rfl, hu⟩
    | random =>
      exact Match.bind hu.match_random fun value u v hu => Coupled.pure ⟨rfl, hu⟩
  · subst hfixed
    refine Coupled.ite Iff.rfl (fun _ => hu.match_pure _) fun _ => ?_
    exact Coupled.ite Iff.rfl (fun _ => hu.match_pure _) fun _ => hu.match_pure _

end Asking

section Concluding

theorem match_resetLemmas (h : Twin L p s t) (l : SockId) (hn : n < s.heap.size) :
    Match L p (resetLemmas l n) (resetLemmas l (L.node n)) s t := by
  refine Coupled.get ?_
  rw [h.heap.label n hn, h.heap.path]
  exact h.match_write l (.refl _) "" (some n) (some (L.node n))

theorem match_solversOn (h : Twin L p s t) (r : NodeId) :
    Coupled (solversOn r) (solversOn (L.node r))
      (fun xs ys u v => (∀ x ∈ xs, L.live x) ∧ Kept L p xs ys u v) (Like L) s t := by
  refine h.bind_solvers (w := .all) fun xs u v hxs hu => Coupled.get (Coupled.ite ?_
    (fun _ => Coupled.raise hu.like) fun _ => ?_)
  · refine exists_congr fun x => and_congr_right fun hx => ?_
    rw [(hu.solver x (hxs x hx)).node, Option.map_eq_none_iff]
  · have hsame : (xs.filter fun x => (v.solver x).node.any fun n => v.heap.root n = L.node r) =
        xs.filter fun x => (u.solver x).node.any fun n => u.heap.root n = r := by
      refine List.filter_congr fun x hx => ?_
      rw [(hu.solver x (hxs x hx)).node]
      cases (u.solver x).node with
      | none => rfl
      | some n => simp [hu.heap.root, hu.inj]
    rw [hsame]
    exact (hu.inOrder _).post fun ys zs w w' hw =>
      ⟨fun x hx => hxs x (List.mem_of_mem_filter (hw.1.mem_iff.mp hx)), hw.2⟩

theorem match_stuck (h : Twin L p s t) (hi : i < p.insts) :
    Match L p (stuck i) (stuck (L.inst i)) s t := by
  have hroot := h.root_lt hi
  refine Coupled.get ?_
  dsimp only
  rw [h.root hi, h.heap.attrs _ hroot, h.heap.childeren, h.heap.label _ hroot]
  refine Coupled.ite Iff.rfl (fun _ => ?_) fun _ => h.match_pure false
  refine Coupled.bind_ofExcept rfl h.like fun childs _ => Coupled.ite ?_ (fun _ => ?_)
    fun _ => h.match_pure false
  · rw [h.terminate, List.map_eq_nil_iff]
  · refine Match.bind (h.match_print _ _) fun _ u v hu =>
      hu.bind_solvers (w := .all) fun xs u v hxs hu => ?_
    refine Match.bind (hu.match_each hxs fun x u v hx hu => hu.match_terminate hx)
      fun _ u v hu => ?_
    have hmodify : Match L p (modify fun s => { s with terminate := true })
        (modify fun s => { s with terminate := true }) u v := ⟨rfl, { hu with terminate := rfl }⟩
    exact hmodify.bind fun _ u v hu => hu.match_pure true

theorem match_release (h : Twin L p s t) (hi : i < p.insts) :
    Match L p (release i) (release (L.inst i)) s t := by
  have hi := Nat.lt_of_lt_of_le hi h.insts
  refine h.fit fun h => Coupled.get ?_
  rw [h.root hi]
  have hroot : s.root i < (p.at s).nodes := h.root_lt hi
  refine Coupled.bind (h.match_solversOn _) fun xs ys u v hu => ?_
  rw [hu.2.1]
  refine Match.bind (hu.2.2.match_each hu.1 fun x u v hx hu => hu.match_stop hx) fun _ u v hu => ?_
  refine Match.bind hu.match_lemmaServer fun l u v hu => ?_
  have last {u v : State} (hu : Twin L (p.at s) u v) : Match L (p.at s)
      (modify fun s => { s with current := none, idleSolvers := [] })
      (modify fun s => { s with current := none, idleSolvers := [] }) u v := by
    have here (j : InstId) (hj : (none : Option InstId) = some j) : j < u.nextInst := by cases hj
    exact Coupled.modify ⟨rfl, { hu with
      current := rfl, here := here, idleSolvers := rfl, resting := fun x hx => by cases hx }⟩
  cases l with
  | none => exact last hu
  | some l =>
    exact Match.bind (hu.match_resetLemmas l (Nat.lt_of_lt_of_le hroot hu.nodes))
      fun _ u v hu => last hu

theorem lookup_trees (h : Twin L p s t) (name : String) :
    t.trees.lookup name = (s.trees.lookup name).map L.inst := by
  rw [h.trees]
  induction s.trees with
  | nil => rfl
  | cons e l ih =>
    obtain ⟨a, j⟩ := e
    rw [List.map_cons, List.lookup_cons, List.lookup_cons, ih]
    cases name == a with
    | true => rfl
    | false => rfl

theorem match_printResult (h : Twin L p s t) (hi : i < p.insts) :
    Match L p (printResult i) (printResult (L.inst i)) s t := by
  have hroot := h.root_lt hi
  refine Coupled.get (Match.bind h.match_now fun time u v hu => ?_)
  rw [h.root hi, h.heap.label _ hroot, h.inst_eq hi]
  cases (s.inst i).started with
  | none => exact Coupled.raise hu.like
  | some started =>
    dsimp only
    rw [h.config]
    refine Coupled.ite Iff.rfl (fun _ => ?_) fun _ => hu.match_print _ _
    refine Match.bind (hu.match_print _ _) fun _ u v hu => Coupled.ite ?_ (fun _ => ?_)
      fun _ => Coupled.raise hu.like
    · rw [h.lookup_trees, Option.isSome_map]
    · refine Coupled.modify ⟨rfl, { hu with trees := ?_, entries := fun e he => ?_ }⟩
      · dsimp only
        rw [hu.trees, List.filter_map]
        rfl
      · exact hu.entries e (List.mem_of_mem_filter he)

theorem match_conclude (h : Twin L p s t) (hi : i < p.insts) :
    Match L p (conclude i) (conclude (L.inst i)) s t := by
  have finish {u v : State} (hu : Twin L p u v) : Match L p
      (do printResult i; release i; return false)
      (do printResult (L.inst i); release (L.inst i); return false) u v :=
    Match.bind (hu.match_printResult hi) fun _ u v hu =>
      Match.bind (hu.match_release hi) fun _ u v hu => hu.match_pure false
  have hroot := h.root_lt hi
  refine Coupled.get ?_
  rw [h.root hi, h.heap.status hroot]
  refine Coupled.ite Iff.rfl (fun _ => ?_) fun _ => finish h
  refine Match.bind (h.match_stuck hi) fun returned u v hu => ?_
  cases returned with
  | true => exact hu.match_pure true
  | false =>
    refine Match.bind (Coupled.when ?_ (fun _ => Coupled.raise hu.like) fun _ => ⟨rfl, hu⟩)
      fun _ u v hu => finish hu
    rw [h.config]

theorem match_isOver (h : Twin L p s t) (hi : i < p.insts) :
    Match L p (isOver i) (isOver (L.inst i)) s t := by
  have hroot := h.root_lt hi
  refine Coupled.get ?_
  rw [h.root hi, h.heap.status hroot]
  refine Coupled.ite Iff.rfl (fun _ => h.match_pure true) fun _ => ?_
  exact Match.bind (h.match_whenTimeout hi) fun time u v hu => hu.match_pure _

end Concluding

section Starting

theorem withInst (h : Twin L p s t) (hi : i < p.insts) {r : Instance → Instance}
    (hr : ∀ d n, r { d with root := n } = { r d with root := n }) :
    Match L p (modifyInst i r) (modifyInst (L.inst i) r) s t := by
  have hroot (d : Instance) : (r d).root = d.root := by
    have hd := congrArg Instance.root (hr d d.root)
    exact hd
  have hsame (j : InstId) :
      (Function.update s.inst i (r (s.inst i)) j).root = (s.inst j).root := by
    by_cases hj : j = i
    · rw [hj, Function.update_self, hroot]
    · rw [Function.update_of_ne hj]
  refine Coupled.modify ⟨rfl, { h with inst := fun j hj => ?_, rooted := fun j hj => ?_ }⟩
  · simp only [State.root, hsame]
    by_cases hji : j = i
    · subst hji
      rw [Function.update_self, Function.update_self, h.inst j hj, hr]
      rfl
    · rw [Function.update_of_ne hji, Function.update_of_ne fun he => hji (h.instMono.injective he),
        h.inst j hj]
      rfl
  · simp only [State.root, hsame]
    exact h.rooted j hj

theorem match_startSolver (h : Twin L p s t) (hx : L.live x) (hi : i < p.insts)
    (even : p.Even 1) : Match L (p.later 1) (startSolver i x) (startSolver (L.inst i) x) s t := by
  refine Coupled.get ?_
  rw [(h.solver x hx).name, h.root hi]
  change Coupled _ (configEntrust _ (t.solvers ((Which.at (some (s.root i))).rename L.node)).length
    >>= _) _ _ _ _
  rw [h.solvers_eq]
  refine Match.bind (h.match_configEntrust _ _) fun parameters u v hu => ?_
  have hu : Twin L (p.later 1) { u with counter := u.counter + 1 } { v with counter := v.counter + 1 } :=
    { hu with
      counter := congrArg (· + 1) hu.counter
      counter' := congrArg (· + 1) hu.counter'
      floor := Nat.le_succ_of_le hu.floor
      ahead := Nat.succ_le_succ hu.ahead }
  refine Match.bind (Coupled.modify ⟨rfl, hu⟩) fun _ u v hu => hu.fit fun hf => Coupled.get ?_
  have hi := Nat.lt_of_lt_of_le hi hu.insts
  have hroot : u.root i < ((p.later 1).at u).nodes := hf.root_lt hi
  rw [hf.counter, hf.counter', hf.root hi]
  have hentry : Header.SameEntry (Header.seed, toString (p.seed + 1))
      (Header.seed, toString (p.seed' + 1)) :=
    ⟨rfl, even 1 (Nat.le_refl 1), fun hne => absurd rfl hne⟩
  have hparam := (Header.Alike.refl parameters).set hentry
  refine Match.bind (hf.match_solve hx hroot hparam) fun _ u v hu => Coupled.get (Coupled.when ?_
    (fun _ => ?_) fun _ => ⟨rfl, hu⟩)
  · rw [hu.inst_eq hi]
  · exact Match.bind hu.match_now fun time u v hu => hu.withInst hi fun _ _ => rfl

theorem schedulables_twin (h : Twin L p s t) :
    Coupled schedulables schedulables
      (fun is js u v => (js = is.map L.inst ∧ ∀ i ∈ is, i < (p.at s).insts) ∧ Twin L (p.at s) u v)
      (Like L) s t := by
  have h := h.at_twin
  refine Coupled.get ?_
  rw [h.trees]
  refine h.foldEach (P := fun e => e.2 < (p.at s).insts) h.entries
    (fun is js e u v his he hu => Coupled.get ?_) ⟨rfl, fun i hi => by cases hi⟩
  obtain ⟨rfl, his⟩ := his
  rw [hu.root he, hu.heap.status (hu.root_lt he)]
  have hadd : (is.map L.inst ++ [L.inst e.2] = (is ++ [e.2]).map L.inst) ∧
      ∀ i ∈ is ++ [e.2], i < (p.at s).insts := by
    refine ⟨by rw [List.map_append, List.map_singleton], fun i hi => ?_⟩
    rcases List.mem_append.mp hi with hi | hi
    · exact his i hi
    · exact List.mem_singleton.mp hi ▸ he
  refine Coupled.ite Iff.rfl (fun _ => ?_) fun _ => Coupled.pure ⟨⟨rfl, his⟩, hu⟩
  refine Match.bind (hu.match_whenTimeout he) fun time u v hu => ?_
  cases time with
  | none => exact Coupled.pure ⟨hadd, hu⟩
  | some time =>
    refine Coupled.pure ⟨?_, hu⟩
    by_cases ht : 0 < time
    · rw [if_pos ht, if_pos ht]
      exact hadd
    · rw [if_neg ht, if_neg ht]
      exact ⟨rfl, his⟩

theorem match_starts {f f' : SockId → M Unit} {xs : List SockId} (h : Twin L p s t)
    (hxs : ∀ x ∈ xs, L.live x) (even : p.Even xs.length)
    (step : ∀ q x u v, L.live x → q.insts = p.insts → q.Even 1 → Twin L q u v →
      Match L (q.later 1) (f x) (f' x) u v) :
    Match L (p.later xs.length) (forEach f xs) (forEach f' xs) s t := by
  induction xs generalizing p s t with
  | nil => exact Coupled.pure ⟨rfl, h⟩
  | cons x xs ih =>
    have hlater : (p.later 1).later xs.length = p.later (xs.length + 1) := by
      simp only [Marks.later, Nat.add_assoc, Nat.add_comm 1]
    have hnext : (p.later 1).Even xs.length := by
      intro j hj
      have := even (j + 1) (Nat.succ_le_succ hj)
      simpa only [Marks.later, Nat.add_assoc, Nat.add_comm 1] using this
    rw [List.length_cons, ← hlater]
    refine Match.bind (step p x s t (hxs x List.mem_cons_self) rfl (fun j hj => even j ?_) h)
      fun _ u v hu => ih hu (fun y hy => hxs y (List.mem_cons_of_mem x hy)) hnext step
    exact Nat.le_trans hj (Nat.succ_le_succ (Nat.zero_le _))

theorem counted (h : Twin L p s t) (htotal : t.totalSolvers = s.totalSolvers) :
    Twin L.counted p s t :=
  { h with total := fun _ => htotal }

theorem uncounted (h : Twin L.counted p s t) : Twin L p s t :=
  { h with total := fun _ => h.total trivial }

theorem length_solvers (s : State) (w : Which) : (s.solvers w).length ≤ s.rlist.length :=
  List.length_filter_le _ _

theorem coupled_starting (h : Twin L p s t) (hi : i < p.insts) (even : p.Even s.rlist.length) :
    Coupled (starting i) (starting (L.inst i))
      (fun a b u v => b = a ∧ Like L.counted u v) (Like L.counted) s t := by
  have hi' := Nat.lt_of_lt_of_le hi h.insts
  have hs : Twin L.counted p
      { s with current := some i, totalSolvers := (s.solvers .all).length }
      { t with current := some (L.inst i), totalSolvers := (t.solvers .all).length } := by
    have here (j : InstId) (hj : some i = some j) : j < s.nextInst := by
      cases hj
      exact hi'
    exact { h with
      current := rfl
      here := here
      total := fun _ => congrArg (fun l : List SockId => (l.length : Int)) (h.solvers_eq .all) }
  refine Coupled.bind (Q := fun _ _ u v =>
    u = { s with current := some i } ∧ v = { t with current := some (L.inst i) })
    (Coupled.modify ⟨rfl, rfl⟩) fun _ _ u v huv => ?_
  obtain ⟨rfl, rfl⟩ := huv
  refine Coupled.bind (Q := fun _ _ u v =>
    u = { s with current := some i, totalSolvers := (s.solvers .all).length } ∧
    v = { t with current := some (L.inst i), totalSolvers := (t.solvers .all).length })
    (Coupled.modify ⟨rfl, rfl⟩) fun _ _ u v huv => ?_
  obtain ⟨rfl, rfl⟩ := huv
  refine Coupled.bind (hs.solvers (.at none)) fun xs ys u v hu => ?_
  obtain ⟨hp, hsame, hu⟩ := hu
  rw [hsame]
  have hlen : xs.length ≤ s.rlist.length := hp.length_eq ▸ length_solvers _ _
  refine Match.bind (hu.match_starts (fun x hx => hs.live_of_solvers (hp.mem_iff.mp hx))
    (fun j hj => even j (Nat.le_trans hj hlen)) fun q x u v hx hq hev hu => ?_)
    fun _ u v hu => Coupled.pure ⟨rfl, hu.like⟩
  exact Match.bind (hu.match_startSolver hx (hq ▸ hi) hev) fun _ u v hu =>
    hu.match_recount _ (fun _ => 0) fun _ => rfl

theorem like_of_counted (h : Like L.counted s t) : Like L s t := by
  obtain ⟨p, h⟩ := h
  exact ⟨p, h.uncounted⟩

theorem coupled_startNext (h : Twin L p s t) (even : p.Even s.rlist.length) :
    Coupled startNext startNext (fun a b u v => b = a ∧ Like L u v) (Like L) s t := by
  have hrlist : Leaves State.rlist schedulables := fun s =>
    congrArg Wiring.rlist (Untouched.unwired untouched_schedulables s)
  refine Coupled.bind (h.schedulables_twin.leaves hrlist) fun is js u v hu => ?_
  obtain ⟨⟨⟨rfl, his⟩, hu⟩, hsame⟩ := hu
  cases is with
  | nil => exact Coupled.pure ⟨rfl, hu.like⟩
  | cons i is =>
    have even : (p.at s).Even u.rlist.length := hsame ▸ even
    exact (hu.coupled_starting (his i List.mem_cons_self) even).mono
      (fun _ _ _ _ hw => ⟨hw.1, like_of_counted hw.2⟩) fun _ _ hw => like_of_counted hw

theorem coupled_welcome (h : Twin L p s t) (hi : i < p.insts) (even : p.Even s.rlist.length) :
    Coupled (welcome i) (welcome (L.inst i)) (fun _ _ u v => ∃ k, Twin L (p.later k) u v) (Like L)
      s t := by
  refine Coupled.get ?_
  rw [h.newlyJoint_eq]
  refine h.bind_inOrder fun xs u v hp hu => ?_
  have hlive (x : SockId) (hx : x ∈ xs) : L.live x :=
    h.joined x (State.mem_newlyJointSolver.mp (hp.mem_iff.mp hx)).1
  have hlen : xs.length ≤ s.rlist.length := hp.length_eq ▸ List.length_filter_le _ _
  refine Coupled.post (hu.match_starts hlive (fun j hj => even j (Nat.le_trans hj hlen))
    fun q x u v hx hq hev hu => ?_) fun _ _ _ _ hu => ⟨xs.length, hu.2⟩
  refine Match.bind (Coupled.modify ⟨rfl, { hu with total := fun hc => ?_ }⟩)
    fun _ u v hu => hu.match_startSolver hx (hq ▸ hi) hev
  exact congrArg (· + 1) (hu.total hc)

theorem match_closeServer (h : Twin L p s t) : Match L p closeServer closeServer s t := by
  refine Coupled.get ?_
  rw [h.rlist]
  refine h.bind_inOrder fun xs u v hp hu => ?_
  refine hu.match_each (P := fun _ => True) (fun _ _ => trivial) fun x u v _ hu => ?_
  refine Match.bind (Coupled.modify ⟨rfl, { hu with rlist := ?_, joined := fun y hy => ?_ }⟩)
    fun _ u v hu => hu.match_closeSocket x
  · exact congrArg (List.filter _) hu.rlist
  · exact hu.joined y ⟨List.mem_of_mem_filter hy.1, hy.2⟩

theorem match_allDone (h : Twin L p s t) (solving : Option InstId) :
    Match L p (allDone solving) (allDone (solving.map L.inst)) s t := by
  refine Coupled.get (Coupled.when ?_ (fun _ => Coupled.when ?_ (fun _ => Coupled.when ?_
    (fun _ => ?_) fun _ => ⟨rfl, h⟩) fun _ => ⟨rfl, h⟩) fun _ => ⟨rfl, h⟩)
  · rw [ne_eq, Option.map_eq_none_iff]
  · rw [h.config]
  · rw [h.rlist, h.kind]
  · exact Match.bind h.match_closeServer fun _ u v hu => Coupled.raise hu.like

end Starting

end Twin

end Smts.Server
