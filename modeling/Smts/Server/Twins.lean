import Smts.Lib.Coupled
import Smts.Server.Guards
import Smts.Server.Renaming

namespace Smts.Server

open Smts.Lib Smts.Lib.Prog

/-- The same readings are to come. -/
structure World.SameFuture (w v : World) : Prop where
  clock : ∀ k, v.env.clock (v.clockTick + k) = w.env.clock (w.clockTick + k)
  writeOk : ∀ k, v.env.writeOk (v.writeTick + k) = w.env.writeOk (w.writeTick + k)
  random : ∀ k, v.env.random (v.randomTick + k) = w.env.random (w.randomTick + k)
  order : ∀ k, v.env.order (v.orderTick + k) = w.env.order (w.orderTick + k)
  horn : v.env.horn = w.env.horn

namespace Header

def seed : String := "parameter.seed"

/-- Two entries that are the same, unless they are seeds of one length. -/
def SameEntry (e e' : String × String) : Prop :=
  e'.1 = e.1 ∧ e'.2.utf8ByteSize = e.2.utf8ByteSize ∧ (e.1 ≠ seed → e'.2 = e.2)

def Alike (h h' : Header) : Prop := List.Forall₂ SameEntry h h'

/-- The header without the value of the seed. -/
def unseeded (h : Header) : Header := h.map fun e => if e.1 = seed then (seed, "") else e

variable {h h' : Header}

theorem SameEntry.refl (e : String × String) : SameEntry e e := ⟨rfl, rfl, fun _ => rfl⟩

theorem Alike.refl (h : Header) : Alike h h := by
  induction h with
  | nil => exact .nil
  | cons e h ih => exact .cons (.refl e) ih

theorem Alike.unseeded (ha : Alike h h') : h'.unseeded = h.unseeded := by
  induction ha with
  | nil => rfl
  | cons he _ ih =>
    obtain ⟨hkey, _, hvalue⟩ := he
    simp only [Header.unseeded, List.map_cons] at ih ⊢
    rw [ih, hkey]
    split
    · rfl
    · next hne => rw [Prod.ext hkey (hvalue hne)]

theorem Alike.fits (ha : Alike h h') (payload : String) :
    Header.fits h' payload = Header.fits h payload := by
  have hall : (h'.all fun e => e.1 ≠ "" && decide (e.1.utf8ByteSize < 256) &&
      decide (e.2.utf8ByteSize < 256)) = h.all fun e => e.1 ≠ "" &&
      decide (e.1.utf8ByteSize < 256) && decide (e.2.utf8ByteSize < 256) := by
    induction ha with
    | nil => rfl
    | cons he _ ih => rw [List.all_cons, List.all_cons, ih, he.1, he.2.1]
  have hsize : h'.map (fun e => e.1.utf8ByteSize + e.2.utf8ByteSize + 2) =
      h.map fun e => e.1.utf8ByteSize + e.2.utf8ByteSize + 2 := by
    clear hall
    induction ha with
    | nil => rfl
    | cons he _ ih => rw [List.map_cons, List.map_cons, ih, he.1, he.2.1]
  rw [Header.fits, Header.fits, hall, hsize]

theorem Alike.has (ha : Alike h h') (key : String) : Header.has h' key = Header.has h key := by
  induction ha with
  | nil => rfl
  | @cons e e' h h' he _ ih =>
    obtain ⟨a, v⟩ := e
    obtain ⟨a', v'⟩ := e'
    obtain rfl : a' = a := he.1
    simp only [Header.has, lookup_cons_if] at ih ⊢
    split
    · rfl
    · exact ih

theorem Alike.set (ha : Alike h h') {key v v' : String} (he : SameEntry (key, v) (key, v')) :
    Alike (Header.set h key v) (Header.set h' key v') := by
  rw [Header.set, Header.set, ha.has]
  split
  · clear * - ha he
    induction ha with
    | nil => exact .nil
    | cons hx _ ih =>
      refine .cons ?_ ih
      dsimp only
      rw [hx.1]
      split
      · exact he
      · exact hx
  · clear * - ha he
    induction ha with
    | nil => exact .cons he .nil
    | cons hx _ ih => exact .cons hx ih

theorem Alike.update (ha : Alike h h') (l : Header) :
    Alike (Header.update h l) (Header.update h' l) := by
  induction l generalizing h h' with
  | nil => exact ha
  | cons e l ih => exact ih (ha.set (.refl e))

end Header

/-- The same message on the same socket, unless the seed is another one. -/
def Sent.Alike (m m' : Sent) : Prop :=
  m'.sock = m.sock ∧ m'.header.unseeded = m.header.unseeded ∧ m'.payload = m.payload

/-- The same solver on the same node. -/
structure SolverData.Twin (f : NodeId → NodeId) (d d' : SolverData) : Prop where
  name : d'.name = d.name
  node : d'.node = d.node.map f
  started : d'.started = d.started
  orWaiting : d'.orWaiting = d.orWaiting.map f

/-- How the nodes and the instances of one server are called in another, the solvers
that are in use in both, a bound for the seeds, and what the two had sent before.  The
last two entries tell whether the servers agree on `total_solvers` and on
`partition_count`. -/
structure Link where
  node : NodeId → NodeId
  inst : InstId → InstId
  live : SockId → Prop
  floor : Nat
  sent : List Sent
  sent' : List Sent
  total : Prop
  count : Prop

/-- The last seeds of two servers, and how many nodes and instances there are at least in
the first one. -/
structure Marks where
  seed : Nat
  seed' : Nat
  nodes : Nat
  insts : Nat

/-- Both servers have counted their solvers. -/
def Link.counted (L : Link) : Link := { L with total := True }

/-- More seeds have been given out. -/
def Marks.later (p : Marks) (n : Nat) : Marks :=
  { p with seed := p.seed + n, seed' := p.seed' + n }

/-- The next seeds are as long in both servers. -/
def Marks.Even (p : Marks) (n : Nat) : Prop :=
  ∀ j ≤ n, (toString (p.seed' + j)).utf8ByteSize = (toString (p.seed + j)).utf8ByteSize

/-- From here on all nodes and instances of a state can be referred to. -/
def Marks.at (p : Marks) (s : State) : Marks :=
  { p with nodes := s.heap.size, insts := s.nextInst }

/-- The second server does as the first one does, whatever else there is in its heap. -/
structure Twin (L : Link) (p : Marks) (s t : State) : Prop where
  world : s.world.SameFuture t.world
  config : t.config = { s.config with partitionCount := t.config.partitionCount }
  count : L.count → t.config.partitionCount = s.config.partitionCount
  heap : s.heap.Embeds L.node t.heap
  nodes : p.nodes ≤ s.heap.size
  insts : p.insts ≤ s.nextInst
  kind : t.kind = s.kind
  sock : t.sock = s.sock
  listening : t.listening = s.listening
  isOpen : t.isOpen = s.isOpen
  remote : t.remote = s.remote
  nextSock : t.nextSock = s.nextSock
  nextConn : t.nextConn = s.nextConn
  rlist : t.rlist = s.rlist
  solver : ∀ x, L.live x → (s.solver x).Twin L.node (t.solver x)
  parked : ∀ x, L.live x → (s.solver x).node = none → (s.solver x).started = none
  placed : ∀ x n, L.live x → (s.solver x).node = some n → n < s.heap.size
  waiting : ∀ x o, L.live x → o ∈ (s.solver x).orWaiting → o < s.heap.size
  joined : ∀ x, s.Connected x → L.live x
  resting : ∀ x ∈ s.idleSolvers, L.live x
  unborn : ∀ x, s.nextSock ≤ x → s.kind x = .raw ∧ s.sock x = none ∧ s.listening x = ""
  unopened : ∀ d, s.nextConn ≤ d → s.isOpen d = false ∧ s.remote d = ""
  instMono : StrictMono L.inst
  instNext : ∀ i, s.nextInst ≤ i → L.inst (i + 1) = L.inst i + 1
  nextInst : t.nextInst = L.inst s.nextInst
  inst : ∀ i, i < s.nextInst → t.inst (L.inst i) = { s.inst i with root := L.node (s.root i) }
  rooted : ∀ i, i < s.nextInst → s.root i < s.heap.size
  trees : t.trees = s.trees.map fun e => (e.1, L.inst e.2)
  entries : ∀ e ∈ s.trees, e.2 < s.nextInst
  current : t.current = s.current.map L.inst
  here : ∀ i, s.current = some i → i < s.nextInst
  idleSolvers : t.idleSolvers = s.idleSolvers
  total : L.total → t.totalSolvers = s.totalSolvers
  terminate : t.terminate = s.terminate
  counter : s.counter = p.seed
  counter' : t.counter = p.seed'
  floor : L.floor ≤ p.seed
  ahead : p.seed ≤ p.seed'
  sent : ∃ l l', s.sent = L.sent ++ l ∧ t.sent = L.sent' ++ l' ∧ List.Forall₂ Sent.Alike l l'

/-- Some twins. -/
def Like (L : Link) (s t : State) : Prop := ∃ p, Twin L p s t

/-- The results are the same, and the servers twins. -/
abbrev Kept (L : Link) (p : Marks) {α : Type} (a b : α) (s t : State) : Prop :=
  b = a ∧ Twin L p s t

/-- The two programs do the same, under the names that the servers have for things. -/
abbrev Match (L : Link) (p : Marks) {α : Type} (m m' : M α) (s t : State) : Prop :=
  Coupled m m' (Kept L p) (Like L) s t

section Rules

variable {L : Link} {p : Marks} {s t : State} {α β γ : Type}

theorem Match.bind {m m' : M α} {f : α → M β} {f' : α → M γ} {R : β → γ → State → State → Prop}
    (hm : Match L p m m' s t)
    (hf : ∀ a u v, Twin L p u v → Coupled (f a) (f' a) R (Like L) u v) :
    Coupled (m >>= f) (m' >>= f') R (Like L) s t := by
  refine Coupled.bind hm fun a b u v hk => ?_
  rw [hk.1]
  exact hf a u v hk.2

end Rules

namespace Twin

variable {L : Link} {p : Marks} {s t : State} {α β γ : Type}

theorem like (h : Twin L p s t) : Like L s t := ⟨p, h⟩

theorem inst_eq (h : Twin L p s t) {i : InstId} (hi : i < p.insts) :
    t.inst (L.inst i) = { s.inst i with root := L.node (s.root i) } :=
  h.inst i (Nat.lt_of_lt_of_le hi h.insts)

theorem root (h : Twin L p s t) {i : InstId} (hi : i < p.insts) :
    t.root (L.inst i) = L.node (s.root i) := by
  rw [State.root, h.inst_eq hi]

theorem root_lt (h : Twin L p s t) {i : InstId} (hi : i < p.insts) : s.root i < s.heap.size :=
  h.rooted i (Nat.lt_of_lt_of_le hi h.insts)

theorem withNodes (h : Twin L p s t) {l : Nat} (hl : l ≤ s.heap.size) :
    Twin L { p with nodes := l } s t :=
  { h with nodes := hl }

theorem lower {l : Nat} (h : Twin L { p with nodes := l } s t) (hl : p.nodes ≤ l) : Twin L p s t :=
  { h with nodes := Nat.le_trans hl h.nodes }

theorem at_twin (h : Twin L p s t) : Twin L (p.at s) s t :=
  { h with nodes := Nat.le_refl _, insts := Nat.le_refl _ }

theorem fitting (h : Twin L p s t) {V : α → β → Prop} {m : M α} {m' : M β}
    (hm : Twin L (p.at s) s t →
      Coupled m m' (fun a b u v => V a b ∧ Twin L (p.at s) u v) (Like L) s t) :
    Coupled m m' (fun a b u v => V a b ∧ Twin L p u v) (Like L) s t :=
  (hm h.at_twin).post fun _ _ _ _ hu =>
    ⟨hu.1, { hu.2 with
      nodes := Nat.le_trans h.nodes hu.2.nodes, insts := Nat.le_trans h.insts hu.2.insts }⟩

theorem fit (h : Twin L p s t) {m m' : M α}
    (hm : Twin L (p.at s) s t → Match L (p.at s) m m' s t) : Match L p m m' s t :=
  h.fitting (V := fun a b => b = a) hm

section Loops

variable {P : α → Prop} {xs : List α}

theorem match_forEach {r : α → β} {f : α → M Unit} {f' : β → M Unit} (h : Twin L p s t)
    (hxs : ∀ x ∈ xs, P x)
    (step : ∀ x u v, P x → Twin L p u v → Match L p (f x) (f' (r x)) u v) :
    Match L p (forEach f xs) (forEach f' (xs.map r)) s t := by
  refine Coupled.post (Coupled.forEach (I := fun xs u v => (∀ x ∈ xs, P x) ∧ Twin L p u v)
    (fun x xs u v hu => ?_) ⟨hxs, h⟩) fun _ _ _ _ hu => ⟨rfl, hu.2⟩
  exact (step x u v (hu.1 x List.mem_cons_self) hu.2).post
    fun _ _ _ _ hw => ⟨fun y hy => hu.1 y (List.mem_cons_of_mem x hy), hw.2⟩

theorem match_each {f f' : α → M Unit} (h : Twin L p s t) (hxs : ∀ x ∈ xs, P x)
    (step : ∀ x u v, P x → Twin L p u v → Match L p (f x) (f' x) u v) :
    Match L p (forEach f xs) (forEach f' xs) s t := by
  have := h.match_forEach (r := id) hxs step
  rwa [List.map_id] at this

theorem foldEach {δ : Type} {V : γ → δ → Prop} {r : α → β} {f : γ → α → M γ} {f' : δ → β → M δ}
    {a : γ} {b : δ} (h : Twin L p s t) (hxs : ∀ x ∈ xs, P x)
    (step : ∀ a b x u v, V a b → P x → Twin L p u v →
      Coupled (f a x) (f' b (r x)) (fun a b u v => V a b ∧ Twin L p u v) (Like L) u v)
    (hV : V a b) :
    Coupled (Prog.foldEach f a xs) (Prog.foldEach f' b (xs.map r))
      (fun a b u v => V a b ∧ Twin L p u v) (Like L) s t := by
  refine Coupled.post (Coupled.foldEach
    (I := fun a b xs u v => (∀ x ∈ xs, P x) ∧ V a b ∧ Twin L p u v)
    (fun a b x xs u v hu => ?_) ⟨hxs, hV, h⟩) fun _ _ _ _ hu => hu.2
  exact (step a b x u v hu.2.1 (hu.1 x List.mem_cons_self) hu.2.2).post
    fun _ _ _ _ hw => ⟨fun y hy => hu.1 y (List.mem_cons_of_mem x hy), hw⟩

theorem fold {δ : Type} {V : γ → δ → Prop} {f : γ → α → M γ} {f' : δ → α → M δ} {a : γ} {b : δ}
    (h : Twin L p s t) (hxs : ∀ x ∈ xs, P x)
    (step : ∀ a b x u v, V a b → P x → Twin L p u v →
      Coupled (f a x) (f' b x) (fun a b u v => V a b ∧ Twin L p u v) (Like L) u v)
    (hV : V a b) :
    Coupled (Prog.foldEach f a xs) (Prog.foldEach f' b xs)
      (fun a b u v => V a b ∧ Twin L p u v) (Like L) s t := by
  have := h.foldEach (r := id) hxs step hV
  rwa [List.map_id] at this

theorem match_while {out : Exn} {f f' : List α → M (List α)} (h : Twin L p s t)
    (hxs : ∀ x ∈ xs, P x)
    (step : ∀ l u v, (∀ x ∈ l, P x) → Twin L p u v →
      Coupled (f l) (f' l) (fun a b u v => (b = a ∧ ∀ x ∈ a, P x) ∧ Twin L p u v) (Like L) u v)
    (fuel : Nat) :
    Match L p (whileNonempty out f fuel xs) (whileNonempty out f' fuel xs) s t := by
  have hround : ∀ l u v, ((∀ x ∈ l, P x) ∧ Twin L p u v) →
      Coupled (f l) (f' (l.map id)) (fun k k' u v => k' = k.map id ∧ (∀ x ∈ k, P x) ∧ Twin L p u v)
        (Like L) u v := by
    intro l u v hu
    rw [List.map_id]
    refine (step l u v hu.1 hu.2).post fun a b u v hw => ⟨?_, hw.1.2, hw.2⟩
    rw [List.map_id]
    exact hw.1.1
  have hloop : Coupled (whileNonempty out f fuel xs) (whileNonempty out f' fuel (xs.map id))
      (fun _ _ u v => (∀ x ∈ [], P x) ∧ Twin L p u v) (Like L) s t :=
    Coupled.whileNonempty hround (fun _ _ _ hu => hu.2.like) ⟨hxs, h⟩
  rw [List.map_id] at hloop
  exact hloop.post fun _ _ _ _ hu => ⟨rfl, hu.2⟩

end Loops

section Sockets

theorem match_pure (h : Twin L p s t) (a : α) : Match L p (pure a) (pure a) s t :=
  Coupled.pure ⟨rfl, h⟩

theorem match_now (h : Twin L p s t) : Match L p now now s t := by
  refine Coupled.of_ok rfl rfl ⟨h.world.clock 0, { h with world := { h.world with clock := ?_ } }⟩
  intro j
  have hj := h.world.clock (1 + j)
  rwa [← Nat.add_assoc, ← Nat.add_assoc] at hj

theorem match_random (h : Twin L p s t) : Match L p random random s t := by
  refine Coupled.of_ok rfl rfl ⟨h.world.random 0, { h with world := { h.world with random := ?_ } }⟩
  intro j
  have hj := h.world.random (1 + j)
  rwa [← Nat.add_assoc, ← Nat.add_assoc] at hj

theorem inOrder (h : Twin L p s t) (xs : List SockId) :
    Coupled (inOrder xs) (inOrder xs) (fun a b u v => a.Perm xs ∧ Kept L p a b u v) (Like L)
      s t := by
  refine Coupled.of_ok rfl rfl ⟨s.world.env.order_perm _ xs,
    congrFun (h.world.order 0) xs, { h with world := { h.world with order := ?_ } }⟩
  intro j
  have hj := h.world.order (1 + j)
  rwa [← Nat.add_assoc, ← Nat.add_assoc] at hj

theorem match_print (h : Twin L p s t) (l l' : Output) :
    Match L p (print l) (print l') s t :=
  Coupled.modify ⟨rfl, { h with }⟩

theorem match_write (h : Twin L p s t) (x : SockId) {header header' : Header}
    (hh : header.Alike header') (payload : String) (about about' : Option NodeId) :
    Match L p (write x header payload about) (write x header' payload about') s t := by
  have hfits := hh.fits payload
  have hok : t.world.env.writeOk t.world.writeTick = s.world.env.writeOk s.world.writeTick :=
    h.world.writeOk 0
  have world : World.SameFuture { s.world with writeTick := s.world.writeTick + 1 }
      { t.world with writeTick := t.world.writeTick + 1 } := by
    refine { h.world with writeOk := fun j => ?_ }
    have hj := h.world.writeOk (1 + j)
    rwa [← Nat.add_assoc, ← Nat.add_assoc] at hj
  unfold Match Coupled
  simp only [wp, write, h.sock, h.isOpen, hfits, hok]
  cases s.sock x with
  | none => exact ⟨rfl, h.like⟩
  | some d =>
    by_cases hf : header.fits payload = true
    · simp only [hf, if_true]
      by_cases ho : (s.isOpen d && s.world.env.writeOk s.world.writeTick) = true
      · simp only [ho, if_true]
        obtain ⟨l, l', hs, ht, hl⟩ := h.sent
        refine ⟨rfl, { h with
          world := world
          sock := rfl
          isOpen := rfl
          sent := ⟨l ++ [⟨x, header, payload, about⟩], l' ++ [⟨x, header', payload, about'⟩],
            ?_, ?_, ?_⟩ }⟩
        · rw [hs, List.append_assoc]
        · rw [ht, List.append_assoc]
        · exact List.rel_append hl (.cons ⟨rfl, hh.unseeded, rfl⟩ .nil)
      · simp only [ho]
        exact ⟨rfl, Twin.like { h with world := world, sock := rfl, isOpen := rfl }⟩
    · simp only [hf]
      exact ⟨rfl, h.like⟩

theorem match_closeSocket (h : Twin L p s t) (x : SockId) :
    Match L p (closeSocket x) (closeSocket x) s t := by
  unfold Match Coupled
  simp only [wp, closeSocket, h.sock, h.isOpen]
  cases s.sock x with
  | none => exact ⟨rfl, h.like⟩
  | some d =>
    refine ⟨rfl, { h with
      sock := rfl
      isOpen := rfl
      unborn := fun y hy => ⟨(h.unborn y hy).1, ?_, (h.unborn y hy).2.2⟩
      unopened := fun e he => ⟨?_, (h.unopened e he).2⟩ }⟩
    · simp only [Function.update_apply, (h.unborn y hy).2.1, ite_self]
    · simp only [Function.update_apply, (h.unopened e he).1, ite_self]

end Sockets

theorem withHeap (h : Twin L p s t) {g g' : Heap} (e : g.Embeds L.node g')
    (hsize : s.heap.size ≤ g.size) :
    Twin L p { s with heap := g } { t with heap := g' } :=
  { h with
    heap := e
    nodes := Nat.le_trans h.nodes hsize
    placed := fun x n hx hn => Nat.lt_of_lt_of_le (h.placed x n hx hn) hsize
    waiting := fun x o hx ho => Nat.lt_of_lt_of_le (h.waiting x o hx ho) hsize
    rooted := fun i hi => Nat.lt_of_lt_of_le (h.rooted i hi) hsize }

theorem match_modifyHeap (h : Twin L p s t) {r r' : Heap → Heap}
    (e : (r s.heap).Embeds L.node (r' t.heap)) (hsize : s.heap.size ≤ (r s.heap).size) :
    Match L p (modifyHeap r) (modifyHeap r') s t :=
  Coupled.modify ⟨rfl, h.withHeap e hsize⟩

theorem match_modifyNode (h : Twin L p s t) {n : NodeId} (hn : n < s.heap.size)
    (r : Attrs → Attrs) : Match L p (modifyNode n r) (modifyNode (L.node n) r) s t :=
  h.match_modifyHeap (h.heap.modify n r hn) (Nat.le_refl _)

theorem withSolver (h : Twin L p s t) {x : SockId} {d d' : SolverData}
    (hd : d.Twin L.node d') (parked : d.node = none → d.started = none)
    (placed : ∀ n, d.node = some n → n < s.heap.size)
    (waiting : ∀ o ∈ d.orWaiting, o < s.heap.size) :
    Twin L p { s with solver := Function.update s.solver x d }
      { t with solver := Function.update t.solver x d' } := by
  have each {P : SockId → SolverData → Prop} (hx : P x d) (hy : ∀ y, P y (s.solver y)) (y : SockId) :
      P y (Function.update s.solver x d y) := by
    by_cases he : y = x
    · subst he
      rwa [Function.update_self]
    · rw [Function.update_of_ne he]
      exact hy y
  refine { h with
    solver := fun y hy => ?_
    parked := each (P := fun y d => L.live y → d.node = none → d.started = none)
      (fun _ => parked) h.parked
    placed := each (P := fun y d => ∀ n, L.live y → d.node = some n → n < s.heap.size)
      (fun n _ => placed n) h.placed
    waiting := each (P := fun y d => ∀ o, L.live y → o ∈ d.orWaiting → o < s.heap.size)
      (fun o _ => waiting o) h.waiting }
  by_cases he : y = x
  · subst he
    simp only [Function.update_self]
    exact hd
  · simp only [Function.update_of_ne he]
    exact h.solver y hy

theorem modifySolver (h : Twin L p s t) {x : SockId} {r r' : SolverData → SolverData}
    (hd : (r (s.solver x)).Twin L.node (r' (t.solver x)))
    (parked : (r (s.solver x)).node = none → (r (s.solver x)).started = none)
    (placed : ∀ n, (r (s.solver x)).node = some n → n < s.heap.size)
    (waiting : ∀ o ∈ (r (s.solver x)).orWaiting, o < s.heap.size) :
    Coupled (Server.modifySolver x r) (Server.modifySolver x r')
      (fun a b u v => Kept L p a b u v ∧ u.solver x = r (s.solver x)) (Like L) s t :=
  Coupled.modify ⟨⟨rfl, h.withSolver hd parked placed waiting⟩, Function.update_self ..⟩

theorem match_modifySolver (h : Twin L p s t) {x : SockId} {r r' : SolverData → SolverData}
    (hd : (r (s.solver x)).Twin L.node (r' (t.solver x)))
    (parked : (r (s.solver x)).node = none → (r (s.solver x)).started = none)
    (placed : ∀ n, (r (s.solver x)).node = some n → n < s.heap.size)
    (waiting : ∀ o ∈ (r (s.solver x)).orWaiting, o < s.heap.size) :
    Match L p (Server.modifySolver x r) (Server.modifySolver x r') s t :=
  (h.modifySolver hd parked placed waiting).post fun _ _ _ _ hu => hu.1

theorem match_recount (h : Twin L p s t) (r : Config → Config) (q : Int → Int)
    (hr : ∀ d, r d = { d with partitionCount := q d.partitionCount }) :
    Match L p (modifyConfig r) (modifyConfig r) s t := by
  refine Coupled.modify ⟨rfl, { h with config := ?_, count := fun hc => ?_ }⟩
  · simp only [hr]
    rw [h.config]
  · simp only [hr]
    rw [h.count hc]

end Twin

end Smts.Server
