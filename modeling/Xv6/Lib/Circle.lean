import Mathlib

/-!
# Circular doubly linked lists

A list of nodes through a head, linked in both directions.  `Circle` says that the
links run through exactly the nodes of a list and back to the head; unlinking a node
and inserting one behind the head are the operations on it.
-/

namespace Xv6.Lib

structure Links (ν : Type) where
  next : ν → ν
  prev : ν → ν

namespace Links

variable {ν : Type} [DecidableEq ν]

def unlink (r : Links ν) (b : ν) : Links ν :=
  let r := { r with prev := Function.update r.prev (r.next b) (r.prev b) }
  { r with next := Function.update r.next (r.prev b) (r.next b) }

def insertFront (r : Links ν) (h b : ν) : Links ν :=
  let r := { r with next := Function.update r.next b (r.next h) }
  let r := { r with prev := Function.update r.prev b h }
  let r := { r with prev := Function.update r.prev (r.next h) b }
  { r with next := Function.update r.next h b }

def Joins (r : Links ν) (a b : ν) : Prop := r.next a = b ∧ r.prev b = a

end Links

structure Circle {ν : Type} (r : Links ν) (h : ν) (l : List ν) : Prop where
  nodup : (h :: l).Nodup
  chain : (h :: (l ++ [h])).IsChain r.Joins

/-- A chain stays one if the relation is kept between its members, the last one on the
right and the first one on the left only. -/
theorem isChain_imp {ν : Type} {R S : ν → ν → Prop} {l : List ν} (h : l.IsChain R)
    (himp : ∀ a ∈ l.dropLast, ∀ b ∈ l.tail, R a b → S a b) : l.IsChain S := by
  induction h with
  | nil => exact .nil
  | singleton a => exact .singleton a
  | cons_cons hab _ ih =>
    rw [List.dropLast_cons_cons, List.tail_cons] at himp
    apply List.IsChain.cons_cons
    · exact himp _ List.mem_cons_self _ List.mem_cons_self hab
    · apply ih
      intro a ha b hb
      exact himp a (List.mem_cons_of_mem _ ha) b (List.mem_cons_of_mem _ hb)

namespace Circle

variable {ν : Type} {r : Links ν} {h a b : ν} {l l₁ l₂ : List ν}

theorem nil (hnext : r.next h = h) (hprev : r.prev h = h) : Circle r h [] := by
  refine ⟨List.nodup_singleton h, ?_⟩
  exact .cons_cons ⟨hnext, hprev⟩ (.singleton h)

theorem next_head (hc : Circle r h l) : r.next h = l.head?.getD h := by
  have hchain := hc.chain
  cases l with
  | nil => exact (List.isChain_pair.1 hchain).1
  | cons a l => exact (List.isChain_cons_cons.1 hchain).1.1

theorem next_mem (hc : Circle r h (l₁ ++ a :: l₂)) : r.next a = l₂.head?.getD h := by
  have hchain := hc.chain
  rw [List.append_assoc, List.cons_append, ← List.cons_append, List.isChain_split] at hchain
  cases l₂ with
  | nil => exact (List.isChain_pair.1 hchain.2).1
  | cons b l₂ => exact (List.isChain_cons_cons.1 hchain.2).1.1

variable [DecidableEq ν]

omit [DecidableEq ν] in
theorem nodup_append (hc : Circle r h l) : (l ++ [h]).Nodup :=
  (List.perm_append_singleton h l).nodup_iff.2 hc.nodup

theorem insertFront_chain {x : ν} {v : List ν} (hlist : l ++ [h] = x :: v)
    (hc : Circle r h l) (hbh : b ≠ h) (hbl : b ∉ l) :
    (x :: v).IsChain (r.insertFront h b).Joins := by
  have hchain := hc.chain
  have hnodup := hc.nodup_append
  have hdrop : (x :: v).dropLast = l := by rw [← hlist, List.dropLast_concat]
  rw [hlist] at hchain hnodup
  have hx : r.next h = x := (List.isChain_cons_cons.1 hchain).1.1
  apply isChain_imp (List.isChain_cons_cons.1 hchain).2
  intro a ha c hcv hac
  rw [hdrop] at ha
  rw [List.tail_cons] at hcv
  have hah : a ≠ h := ne_of_mem_of_not_mem ha (List.nodup_cons.1 hc.nodup).1
  have hab : a ≠ b := ne_of_mem_of_not_mem ha hbl
  have hcx : c ≠ x := ne_of_mem_of_not_mem hcv (List.nodup_cons.1 hnodup).1
  have hcb : c ≠ b := by
    rintro rfl
    have hmem : c ∈ l ++ [h] := by
      rw [hlist]
      exact List.mem_cons_of_mem x hcv
    rcases List.mem_append.1 hmem with hcl | hch
    · exact hbl hcl
    · exact hbh (List.mem_singleton.1 hch)
  constructor
  · show Function.update (Function.update r.next b (r.next h)) h b a = c
    rw [Function.update_of_ne hah, Function.update_of_ne hab, hac.1]
  · show Function.update (Function.update r.prev b h)
      (Function.update r.next b (r.next h) h) b c = a
    rw [Function.update_of_ne hbh.symm, hx, Function.update_of_ne hcx,
      Function.update_of_ne hcb, hac.2]

theorem insertFront (hc : Circle r h l) (hbh : b ≠ h) (hbl : b ∉ l) :
    Circle (r.insertFront h b) h (b :: l) := by
  obtain ⟨x, v, hlist⟩ : ∃ x v, l ++ [h] = x :: v := by
    cases l with
    | nil => exact ⟨h, [], rfl⟩
    | cons x l => exact ⟨x, l ++ [h], rfl⟩
  have hchain := hc.chain
  rw [hlist] at hchain
  have hx : r.next h = x := (List.isChain_cons_cons.1 hchain).1.1
  have hbx : b ≠ x := by
    rintro rfl
    have hmem : b ∈ l ++ [h] := by
      rw [hlist]
      exact List.mem_cons_self
    rcases List.mem_append.1 hmem with hmem | hmem
    · exact hbl hmem
    · exact hbh (List.mem_singleton.1 hmem)
  have hprev : (r.insertFront h b).prev = Function.update (Function.update r.prev b h) x b := by
    show Function.update (Function.update r.prev b h)
      (Function.update r.next b (r.next h) h) b = _
    rw [Function.update_of_ne hbh.symm, hx]
  have hnext : (r.insertFront h b).next = Function.update (Function.update r.next b x) h b := by
    rw [← hx]
    rfl
  refine ⟨?_, ?_⟩
  · refine List.nodup_cons.2 ⟨?_, List.nodup_cons.2 ⟨hbl, (List.nodup_cons.1 hc.nodup).2⟩⟩
    rw [List.mem_cons, not_or]
    exact ⟨hbh.symm, (List.nodup_cons.1 hc.nodup).1⟩
  · rw [List.cons_append, hlist]
    refine .cons_cons ⟨?_, ?_⟩ (.cons_cons ⟨?_, ?_⟩ (insertFront_chain hlist hc hbh hbl))
    · rw [hnext, Function.update_self]
    · rw [hprev, Function.update_of_ne hbx, Function.update_self]
    · rw [hnext, Function.update_of_ne hbh, Function.update_self]
    · rw [hprev, Function.update_self]

theorem unlink (hc : Circle r h (l₁ ++ b :: l₂)) : Circle (r.unlink b) h (l₁ ++ l₂) := by
  -- The neighbours of the node, with the lists on their far sides.
  obtain ⟨u, p, hp⟩ : ∃ u p, h :: l₁ = u ++ [p] :=
    ⟨_, _, (List.dropLast_append_getLast (List.cons_ne_nil h l₁)).symm⟩
  obtain ⟨n, v, hn⟩ : ∃ n v, l₂ ++ [h] = n :: v := by
    cases l₂ with
    | nil => exact ⟨h, [], rfl⟩
    | cons n l => exact ⟨n, l ++ [h], rfl⟩
  have hsplit : h :: (l₁ ++ b :: l₂ ++ [h]) = u ++ [p] ++ b :: n :: v := by
    rw [← hp, ← hn]
    simp
  have hchain := hc.chain
  rw [hsplit, List.append_assoc, List.singleton_append, List.isChain_append_cons_cons,
    List.isChain_cons_cons] at hchain
  obtain ⟨hleft, hpb, hbn, hright⟩ := hchain
  have hnodup : (h :: l₁ ++ (b :: l₂)).Nodup := hc.nodup
  obtain ⟨hl₁, hbl₂, hdisj⟩ := List.nodup_append.1 hnodup
  obtain ⟨hb₂, hl₂⟩ := List.nodup_cons.1 hbl₂
  have hhl₂ : h ∉ l₂ := fun hmem =>
    hdisj h List.mem_cons_self h (List.mem_cons_of_mem b hmem) rfl
  have hright_nodup : (n :: v).Nodup := by
    rw [← hn, (List.perm_append_singleton h l₂).nodup_iff]
    exact List.nodup_cons.2 ⟨hhl₂, hl₂⟩
  have hpmem : p ∈ h :: l₁ := by
    rw [hp]
    exact List.mem_append_right u List.mem_cons_self
  have hnmem : n ∈ l₂ ++ [h] := by
    rw [hn]
    exact List.mem_cons_self
  have hbn' : b ≠ n := by
    rintro rfl
    rcases List.mem_append.1 hnmem with hmem | hmem
    · exact hb₂ hmem
    · exact hdisj h List.mem_cons_self b List.mem_cons_self (List.mem_singleton.1 hmem).symm
  have hnext : (r.unlink b).next = Function.update r.next p n := by
    show Function.update r.next (Function.update r.prev (r.next b) (r.prev b) b) (r.next b) = _
    rw [hbn.1, Function.update_of_ne hbn', hpb.2]
  have hprev : (r.unlink b).prev = Function.update r.prev n p := by
    show Function.update r.prev (r.next b) (r.prev b) = _
    rw [hbn.1, hpb.2]
  have hjoin : ∀ a c, a ≠ p → c ≠ n → r.Joins a c → (r.unlink b).Joins a c := by
    intro a c ha hcn hac
    constructor
    · rw [hnext, Function.update_of_ne ha, hac.1]
    · rw [hprev, Function.update_of_ne hcn, hac.2]
  refine ⟨?_, ?_⟩
  · exact List.Nodup.sublist ((List.sublist_append_right [b] l₂).append_left (h :: l₁)) hnodup
  · have hlist : h :: (l₁ ++ l₂ ++ [h]) = u ++ p :: n :: v := by
      rw [List.append_assoc, hn, ← List.cons_append, hp, List.append_assoc, List.singleton_append]
    rw [hlist, List.isChain_append_cons_cons]
    refine ⟨isChain_imp hleft ?_, ⟨?_, ?_⟩, isChain_imp hright ?_⟩
    · intro a ha c hcl
      rw [List.dropLast_concat] at ha
      rw [← hp, List.tail_cons] at hcl
      apply hjoin
      · rintro rfl
        rw [hp, List.nodup_append] at hl₁
        exact hl₁.2.2 a ha a List.mem_cons_self rfl
      · rintro rfl
        rcases List.mem_append.1 hnmem with hmem | hmem
        · exact hdisj c (List.mem_cons_of_mem h hcl) c (List.mem_cons_of_mem b hmem) rfl
        · rw [List.mem_singleton.1 hmem] at hcl
          exact (List.nodup_cons.1 hl₁).1 hcl
    · rw [hnext, Function.update_self]
    · rw [hprev, Function.update_self]
    · intro a ha c hcv
      rw [← hn, List.dropLast_concat] at ha
      apply hjoin
      · rintro rfl
        exact hdisj a hpmem a (List.mem_cons_of_mem b ha) rfl
      · exact ne_of_mem_of_not_mem hcv (List.nodup_cons.1 hright_nodup).1

end Circle

end Xv6.Lib
