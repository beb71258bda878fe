import Mathlib

/-!
# Ledgers of packets

A sender takes packets in order and sends their bytes in order.  The ledger has the fate of every
packet: all of it was sent, its rest waits behind what was sent, or its rest was dropped.  The ledger
is in order if nothing was sent of the packets behind one that waits.
-/

namespace Ledger

open List

variable {α : Type*}

/-- What became of a packet. -/
inductive Fate (α : Type*) where
  | delivered (packet : List α)
  | waiting (sent rest : List α)
  | dropped (sent rest : List α)

namespace Fate

/-- The whole packet. -/
def packet : Fate α → List α
  | delivered p => p
  | waiting s r => s ++ r
  | dropped s r => s ++ r

/-- What was sent of it. -/
def sent : Fate α → List α
  | delivered p => p
  | waiting s _ => s
  | dropped s _ => s

/-- Its rest, if it waits. -/
def pending : Fate α → Option (List α)
  | waiting _ r => some r
  | _ => none

/-- Its rest, if it was dropped. -/
def lost : Fate α → Option (List α)
  | dropped _ r => some r
  | _ => none

/-- The packet without what was dropped. -/
def kept : Fate α → List α
  | delivered p => p
  | waiting s r => s ++ r
  | dropped s _ => s

/-- A packet does not wait any more. -/
def drop : Fate α → Fate α
  | waiting s r => dropped s r
  | f => f

end Fate

/-- The packets that were taken. -/
def packets (l : List (Fate α)) : List (List α) := l.map Fate.packet

/-- The bytes that were sent. -/
def sent (l : List (Fate α)) : List α := l.flatMap Fate.sent

/-- The rests that wait. -/
def pending (l : List (Fate α)) : List (List α) := l.filterMap Fate.pending

/-- The rests that were dropped. -/
def lost (l : List (Fate α)) : List (List α) := l.filterMap Fate.lost

/-- The bytes of the packets without what was dropped. -/
def kept (l : List (Fate α)) : List α := l.flatMap Fate.kept

/-- Nothing was sent of the packets behind one that waits. -/
def InOrder : List (Fate α) → Prop
  | [] => True
  | .waiting _ _ :: l => ∀ f ∈ l, f.sent = []
  | _ :: l => InOrder l

/-- The first packet that waits is sent. -/
def deliver : List (Fate α) → List (Fate α)
  | [] => []
  | .waiting s r :: l => .delivered (s ++ r) :: l
  | f :: l => f :: deliver l

/-- All packets that wait are dropped. -/
def dropAll (l : List (Fate α)) : List (Fate α) := l.map Fate.drop

variable {l : List (Fate α)} {r : List α} {rs : List (List α)} {f : Fate α}

theorem inOrder_of_sent_nil : ∀ {l : List (Fate α)}, (∀ f ∈ l, f.sent = []) → InOrder l
  | [], _ => trivial
  | .delivered _ :: l, h => inOrder_of_sent_nil (l := l) fun f hf => h f (mem_cons_of_mem _ hf)
  | .waiting _ _ :: _, h => fun f hf => h f (mem_cons_of_mem _ hf)
  | .dropped _ _ :: l, h => inOrder_of_sent_nil (l := l) fun f hf => h f (mem_cons_of_mem _ hf)

theorem sent_of_sent_nil (h : ∀ f ∈ l, f.sent = []) : sent l = [] :=
  flatMap_eq_nil_iff.mpr h

/-- A packet of which nothing was sent comes last. -/
theorem InOrder.append : ∀ {l : List (Fate α)}, InOrder l → f.sent = [] → InOrder (l ++ [f])
  | [], _, hf => inOrder_of_sent_nil fun g hg => mem_singleton.mp hg ▸ hf
  | .delivered _ :: l, h, hf => InOrder.append (l := l) h hf
  | .dropped _ _ :: l, h, hf => InOrder.append (l := l) h hf
  | .waiting _ _ :: _, h, hf => fun g hg => by
    rcases mem_append.mp hg with hg | hg
    · exact h g hg
    · exact mem_singleton.mp hg ▸ hf

theorem inOrder_append : ∀ {l : List (Fate α)}, pending l = [] → InOrder (l ++ [f])
  | [], _ => by
    cases f with
    | delivered p => trivial
    | waiting s r => exact fun g hg => absurd hg not_mem_nil
    | dropped s r => trivial
  | .delivered _ :: l, h => inOrder_append (l := l) h
  | .dropped _ _ :: l, h => inOrder_append (l := l) h
  | .waiting _ _ :: _, h => by cases h

theorem InOrder.kept_eq : ∀ {l : List (Fate α)}, InOrder l → kept l = sent l ++ (pending l).flatten
  | [], _ => rfl
  | .delivered p :: l, h => by
    have ih := InOrder.kept_eq (l := l) h
    simp only [kept, sent, pending, flatMap_cons, Fate.kept, Fate.sent, filterMap_cons,
      Fate.pending] at ih ⊢
    rw [ih, append_assoc]
  | .dropped s r :: l, h => by
    have ih := InOrder.kept_eq (l := l) h
    simp only [kept, sent, pending, flatMap_cons, Fate.kept, Fate.sent, filterMap_cons,
      Fate.pending] at ih ⊢
    rw [ih, append_assoc]
  | .waiting s r :: l, h => by
    have ih := InOrder.kept_eq (inOrder_of_sent_nil h)
    have hnil : sent l = [] := sent_of_sent_nil h
    rw [hnil, nil_append] at ih
    simp only [kept, sent, pending, flatMap_cons, Fate.kept, Fate.sent, filterMap_cons,
      Fate.pending, flatten_cons] at ih hnil ⊢
    rw [ih, hnil, append_nil, append_assoc]

theorem sent_length_le (l : List (Fate α)) : (sent l).length ≤ (packets l).flatten.length := by
  induction l with
  | nil => exact Nat.le_refl 0
  | cons f l ih =>
    have hf : f.sent.length ≤ f.packet.length := by
      cases f with
      | delivered p => exact Nat.le_refl _
      | waiting s r => exact length_append ▸ Nat.le_add_right ..
      | dropped s r => exact length_append ▸ Nat.le_add_right ..
    simp only [sent, packets, flatMap_cons, map_cons, flatten_cons,
      length_append] at ih ⊢
    exact Nat.add_le_add hf ih

/-! ## Sending the first packet that waits -/

theorem deliver_packets : ∀ l : List (Fate α), packets (deliver l) = packets l
  | [] => rfl
  | .waiting _ _ :: _ => rfl
  | .delivered p :: l => congrArg (p :: ·) (deliver_packets l)
  | .dropped s r :: l => congrArg ((s ++ r) :: ·) (deliver_packets l)

theorem deliver_lost : ∀ l : List (Fate α), lost (deliver l) = lost l
  | [] => rfl
  | .waiting _ _ :: _ => rfl
  | .delivered _ :: l => deliver_lost l
  | .dropped _ r :: l => congrArg (r :: ·) (deliver_lost l)

theorem deliver_pending : ∀ l : List (Fate α), pending (deliver l) = (pending l).tail
  | [] => rfl
  | .waiting _ _ :: _ => rfl
  | .delivered _ :: l => deliver_pending l
  | .dropped _ _ :: l => deliver_pending l

theorem InOrder.deliver : ∀ {l : List (Fate α)}, InOrder l → InOrder (deliver l)
  | [], _ => trivial
  | .waiting _ _ :: l, h => inOrder_of_sent_nil (l := l) h
  | .delivered _ :: l, h => InOrder.deliver (l := l) h
  | .dropped _ _ :: l, h => InOrder.deliver (l := l) h

theorem InOrder.deliver_sent : ∀ {l : List (Fate α)}, InOrder l → pending l = r :: rs →
    sent (Ledger.deliver l) = sent l ++ r
  | [], _, h => by cases h
  | .waiting s r' :: l, h, hp => by
    obtain rfl : r' = r := (List.cons.inj hp).1
    have hnil : sent l = [] := sent_of_sent_nil h
    simp only [sent, Ledger.deliver, flatMap_cons, Fate.sent] at hnil ⊢
    rw [hnil, append_nil, append_nil]
  | .delivered p :: l, h, hp => by
    have ih := InOrder.deliver_sent (l := l) h hp
    simp only [sent, Ledger.deliver, flatMap_cons] at ih ⊢
    rw [ih, append_assoc]
  | .dropped s t :: l, h, hp => by
    have ih := InOrder.deliver_sent (l := l) h hp
    simp only [sent, Ledger.deliver, flatMap_cons] at ih ⊢
    rw [ih, append_assoc]

/-! ## Dropping all packets that wait -/

theorem dropAll_packets (l : List (Fate α)) : packets (dropAll l) = packets l := by
  simp only [packets, dropAll, List.map_map]
  refine map_congr_left fun f _ => ?_
  cases f <;> rfl

theorem dropAll_sent (l : List (Fate α)) : sent (dropAll l) = sent l := by
  induction l with
  | nil => rfl
  | cons f l ih =>
    have hf : f.drop.sent = f.sent := by cases f <;> rfl
    simp only [sent, dropAll, map_cons, flatMap_cons, hf] at ih ⊢
    rw [ih]

theorem dropAll_pending (l : List (Fate α)) : pending (dropAll l) = [] := by
  rw [pending, filterMap_eq_nil_iff]
  intro f hf
  obtain ⟨g, -, rfl⟩ := List.mem_map.mp hf
  cases g <;> rfl

theorem dropAll_lost (l : List (Fate α)) : (lost (dropAll l)).Perm (lost l ++ pending l) := by
  induction l with
  | nil => exact .refl _
  | cons f l ih =>
    cases f with
    | delivered p => exact ih
    | dropped s r => exact ih.cons r
    | waiting s r => exact (ih.cons r).trans perm_middle.symm

theorem inOrder_of_pending_nil : ∀ {l : List (Fate α)}, pending l = [] → InOrder l
  | [], _ => trivial
  | .delivered _ :: l, h => inOrder_of_pending_nil (l := l) h
  | .dropped _ _ :: l, h => inOrder_of_pending_nil (l := l) h
  | .waiting _ _ :: _, h => by cases h

end Ledger
