import Mathlib.Data.List.Nodup

namespace Smts.Lib

/-- A map that is read with a default and keeps one entry for each key. -/
abbrev Table (κ β : Type) := List (κ × β)

namespace Table

variable {κ β : Type} [DecidableEq κ]

def find (d : β) (k : κ) : Table κ β → β
  | [] => d
  | (k', v) :: t => if k' = k then v else find d k t

def put (k : κ) (v : β) : Table κ β → Table κ β
  | [] => [(k, v)]
  | (k', v') :: t => if k' = k then (k, v) :: t else (k', v') :: put k v t

theorem put_of_notMem {k : κ} {v : β} {t : Table κ β} (h : k ∉ t.map Prod.fst) :
    put k v t = t ++ [(k, v)] := by
  induction t with
  | nil => rfl
  | cons e t ih =>
    rw [List.map_cons, List.mem_cons, not_or] at h
    rw [put, if_neg (Ne.symm h.1), ih h.2, List.cons_append]

def erase (k : κ) (t : Table κ β) : Table κ β := t.filter fun e => e.1 ≠ k

section Laws

variable {d v : β} {k k' : κ} {t : Table κ β}

theorem find_put : find d k (put k' v t) = if k' = k then v else find d k t := by
  induction t with
  | nil => rfl
  | cons e t ih =>
    obtain ⟨k₀, v₀⟩ := e
    by_cases hput : k₀ = k'
    · subst hput
      rw [put, if_pos rfl, find, find]
      split <;> rfl
    · rw [put, if_neg hput, find, find, ih]
      split
      · next hk => rw [if_neg fun h => hput (hk.trans h.symm)]
      · rfl

theorem find_erase : find d k (erase k' t) = if k' = k then d else find d k t := by
  induction t with
  | nil => exact (ite_self d).symm
  | cons e t ih =>
    obtain ⟨k₀, v₀⟩ := e
    rw [erase] at ih ⊢
    by_cases hk : k₀ = k'
    · subst hk
      rw [List.filter_cons_of_neg (by simp), ih, find]
      split <;> rfl
    · rw [List.filter_cons_of_pos (by simpa using hk), find, find, ih]
      split
      · next hkk => rw [if_neg fun h => hk (hkk.trans h.symm)]
      · rfl

theorem find_mem (k : κ) (t : Table κ β) : find d k t = d ∨ (k, find d k t) ∈ t := by
  induction t with
  | nil => exact .inl rfl
  | cons e t ih =>
    obtain ⟨k₀, v₀⟩ := e
    rw [find]
    split
    · next hk => exact .inr (hk ▸ List.mem_cons_self)
    · exact ih.imp_right (List.mem_cons_of_mem _)

theorem find_of_mem (h : (t.map Prod.fst).Nodup) (hm : (k, v) ∈ t) : find d k t = v := by
  induction t with
  | nil => exact absurd hm List.not_mem_nil
  | cons e t ih =>
    rw [List.map_cons, List.nodup_cons] at h
    rcases List.mem_cons.mp hm with rfl | hm
    · exact if_pos rfl
    · have hne : e.1 ≠ k := fun he => h.1 (he ▸ List.mem_map_of_mem hm)
      exact (if_neg hne).trans (ih h.2 hm)

theorem mem_of_find (h : find d k t ≠ d) : (k, find d k t) ∈ t := by
  induction t with
  | nil => exact absurd rfl h
  | cons e t ih =>
    obtain ⟨k₀, v₀⟩ := e
    by_cases hk : k₀ = k
    · subst hk
      rw [find, if_pos rfl]
      exact List.mem_cons_self
    · rw [find, if_neg hk] at h ⊢
      exact List.mem_cons_of_mem _ (ih h)

theorem mem_put {e : κ × β} (h : e ∈ put k v t) : e = (k, v) ∨ e ∈ t := by
  induction t with
  | nil => exact .inl (List.mem_singleton.mp h)
  | cons e' t ih =>
    obtain ⟨k₀, v₀⟩ := e'
    rw [put] at h
    split at h
    · exact (List.mem_cons.mp h).imp_right (List.mem_cons_of_mem _)
    · rcases List.mem_cons.mp h with rfl | h
      · exact .inr List.mem_cons_self
      · exact (ih h).imp_right (List.mem_cons_of_mem _)

theorem find_of_notMem (h : k ∉ t.map Prod.fst) : find d k t = d := by
  rcases find_mem k t with hd | hm
  · exact hd
  · exact absurd (List.mem_map_of_mem hm) h

theorem mem_keys_put : k ∈ (put k' v t).map Prod.fst ↔ k = k' ∨ k ∈ t.map Prod.fst := by
  induction t with
  | nil => simp [put]
  | cons e t ih =>
    rw [put]
    split
    · next hk =>
      subst hk
      simp
    · rw [List.map_cons, List.mem_cons, List.map_cons, List.mem_cons, ih]
      exact or_left_comm

theorem nodup_put (h : (t.map Prod.fst).Nodup) : ((put k v t).map Prod.fst).Nodup := by
  induction t with
  | nil => exact List.nodup_singleton k
  | cons e t ih =>
    obtain ⟨k₀, v₀⟩ := e
    rw [List.map_cons, List.nodup_cons] at h
    rw [put]
    split
    · next hk => exact List.nodup_cons.mpr ⟨hk ▸ h.1, h.2⟩
    · next hk =>
      refine List.nodup_cons.mpr ⟨fun hm => ?_, ih h.2⟩
      obtain ⟨e, he, hek⟩ := List.mem_map.mp hm
      rcases mem_put he with rfl | he
      · exact hk hek.symm
      · exact h.1 (hek ▸ List.mem_map_of_mem he)

theorem nodup_erase (h : (t.map Prod.fst).Nodup) : ((erase k t).map Prod.fst).Nodup :=
  h.sublist (List.filter_sublist.map _)

end Laws

end Table

end Smts.Lib
