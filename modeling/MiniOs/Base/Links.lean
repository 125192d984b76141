import Mathlib.Data.List.Nodup
import Mathlib.Logic.Function.Basic

/-!
# Lists through a link field

Nodes carry a link to the next node, and a list is given by the link to its first node.
`Chain next p xs` says that following the links from `p` meets exactly the nodes `xs`.
The links of all lists are one function, so a node is on one list at most, and a change of
one list leaves every list whose nodes keep their links (`Chain.congr`).

A queue also keeps a link to its last node.  `insertTail` and `removeHead` are the queue
operations on the links, and `Rep` relates a queue to the list of its nodes.  A list without
a last link is changed in the middle through the *place* of a link: the head of the list, or
the link field of a node (`Chain.splice`).
-/

namespace MiniOs

open Function (update_of_ne update_self)

/-- An update that keeps a field keeps it everywhere. -/
theorem proj_update {α β γ : Type} [DecidableEq α] {f : α → β} {p : β → γ} {a : α} {b : β}
    (h : p b = p (f a)) (x : α) : p (Function.update f a b x) = p (f x) := by
  by_cases hx : x = a
  · rw [hx, update_self, h]
  · rw [update_of_ne hx]

/-- The links to the first and the last node of a queue. -/
structure Ends (α : Type) where
  head : Option α
  tail : Option α
deriving DecidableEq

namespace Ends

/-- The queue with no nodes. -/
def empty {α : Type} : Ends α := ⟨none, none⟩

end Ends

section Chains

variable {α : Type}

/-- The nodes met by following the links from `p`. -/
def Chain (next : α → Option α) : Option α → List α → Prop
  | p, [] => p = none
  | p, a :: as => p = some a ∧ Chain next (next a) as

namespace Chain

variable {next next' : α → Option α} {p : Option α} {xs ys : List α}

@[simp] theorem nil_iff : Chain next p [] ↔ p = none := Iff.rfl

/-- Links outside the list do not matter. -/
theorem congr (h : Chain next p xs) (heq : ∀ a ∈ xs, next' a = next a) : Chain next' p xs := by
  induction xs generalizing p with
  | nil => exact h
  | cons a xs ih =>
    obtain ⟨hp, hc⟩ := h
    refine ⟨hp, ?_⟩
    rw [heq a (List.mem_cons_self ..)]
    exact ih hc fun b hb => heq b (List.mem_cons_of_mem _ hb)

theorem head_eq (h : Chain next p xs) : p = xs.head? := by
  cases xs with
  | nil => exact h
  | cons a xs => exact h.1

/-- The links determine the nodes. -/
theorem unique (h : Chain next p xs) (h' : Chain next p ys) : xs = ys := by
  induction xs generalizing p ys with
  | nil =>
    cases ys with
    | nil => rfl
    | cons b ys =>
      rw [nil_iff.mp h] at h'
      cases h'.1
  | cons a xs ih =>
    cases ys with
    | nil =>
      rw [nil_iff.mp h'] at h
      cases h.1
    | cons b ys =>
      obtain rfl : a = b := by
        have := h.1.symm.trans h'.1
        exact Option.some.inj this
      rw [ih h.2 h'.2]

/-- One more node at the end. -/
theorem snoc [DecidableEq α] {a b : α} (h : Chain next p xs) (hl : xs.getLast? = some b)
    (hnd : xs.Nodup) (ha : a ∉ xs) (hna : next a = none) :
    Chain (Function.update next b (some a)) p (xs ++ [a]) := by
  induction xs generalizing p with
  | nil => cases hl
  | cons c xs ih =>
    rw [List.nodup_cons] at hnd
    rw [List.mem_cons, not_or] at ha
    cases xs with
    | nil =>
      obtain rfl : c = b := by simpa using hl
      refine ⟨h.1, update_self .., ?_⟩
      rw [update_of_ne ha.1]
      exact hna
    | cons d xs =>
      have hl' : (d :: xs).getLast? = some b := by simpa using hl
      have hb : b ∈ d :: xs := List.mem_of_getLast? hl'
      have hcb : c ≠ b := by
        rintro rfl
        exact hnd.1 hb
      refine ⟨h.1, ?_⟩
      rw [update_of_ne hcb]
      exact ih h.2 hl' hnd.2 ha.2

end Chain

/-! ## Queues -/

/-- A queue and the list of its nodes, each once. -/
structure Rep (next : α → Option α) (q : Ends α) (xs : List α) : Prop where
  chain : Chain next q.head xs
  tail : q.tail = xs.getLast?
  nodup : xs.Nodup

theorem Rep.nil (next : α → Option α) : Rep next Ends.empty [] := ⟨rfl, rfl, List.nodup_nil⟩

theorem Rep.congr {next next' : α → Option α} {q : Ends α} {xs : List α} (h : Rep next q xs)
    (heq : ∀ a ∈ xs, next' a = next a) : Rep next' q xs :=
  ⟨h.chain.congr heq, h.tail, h.nodup⟩

variable [DecidableEq α]

/-- Put a node at the end of a queue.  There is no result when one of the two ends is null
and the other is not. -/
def insertTail (next : α → Option α) (q : Ends α) (a : α) : Option ((α → Option α) × Ends α) :=
  let next := Function.update next a none
  match q.tail with
  | some b => if q.head.isSome then some (Function.update next b (some a), ⟨q.head, some a⟩) else none
  | none => if q.head.isNone then some (next, ⟨some a, some a⟩) else none

/-- Take the node at the front of a queue, if there is one. -/
def removeHead (next : α → Option α) (q : Ends α) : Option α × (α → Option α) × Ends α :=
  match q.head with
  | none => (none, next, q)
  | some a =>
      let head := next a
      (some a, Function.update next a none, ⟨head, if head.isSome then q.tail else none⟩)

namespace Rep

variable {next : α → Option α} {q : Ends α} {xs : List α}

/-- A node that is on no list goes to the end.  Only links of the queue's own nodes change. -/
theorem insertTail (h : Rep next q xs) {a : α} (ha : a ∉ xs) :
    ∃ next' q', MiniOs.insertTail next q a = some (next', q') ∧ Rep next' q' (xs ++ [a]) ∧
      ∀ b, b ≠ a → b ∉ xs → next' b = next b := by
  obtain ⟨hc, ht, hnd⟩ := h
  have hkeep : ∀ b ∈ xs, Function.update next a none b = next b := by
    intro b hb
    apply update_of_ne
    rintro rfl
    exact ha hb
  have hnd' : (xs ++ [a]).Nodup := by
    rw [List.nodup_append]
    refine ⟨hnd, List.nodup_singleton a, ?_⟩
    rintro b hb c hc' rfl
    rw [List.mem_singleton.mp hc'] at hb
    exact ha hb
  cases hlast : xs.getLast? with
  | none =>
    obtain rfl : xs = [] := List.getLast?_eq_none_iff.mp hlast
    have hh : q.head = none := hc
    refine ⟨Function.update next a none, ⟨some a, some a⟩, ?_, ?_, ?_⟩
    · simp [MiniOs.insertTail, ht, hh]
    · exact ⟨⟨rfl, update_self ..⟩, rfl, hnd'⟩
    · intro b hb _
      exact update_of_ne hb _ _
  | some c =>
    have hcm : c ∈ xs := List.mem_of_getLast? hlast
    have hh : q.head.isSome = true := by
      rw [hc.head_eq]
      cases xs with
      | nil => cases hcm
      | cons => rfl
    refine ⟨Function.update (Function.update next a none) c (some a), ⟨q.head, some a⟩, ?_, ?_, ?_⟩
    · simp [MiniOs.insertTail, ht, hlast, hh]
    · refine ⟨?_, by simp, hnd'⟩
      exact (hc.congr hkeep).snoc hlast hnd ha (update_self ..)
    · intro b hb hbx
      have hbc : b ≠ c := by
        rintro rfl
        exact hbx hcm
      rw [update_of_ne hbc, update_of_ne hb]

theorem removeHead_nil (h : Rep next q []) : MiniOs.removeHead next q = (none, next, q) := by
  have hh : q.head = none := h.chain
  simp [MiniOs.removeHead, hh]

/-- The front node is taken off. -/
theorem removeHead_cons {a : α} (h : Rep next q (a :: xs)) :
    ∃ q', MiniOs.removeHead next q = (some a, Function.update next a none, q') ∧
      Rep (Function.update next a none) q' xs := by
  obtain ⟨⟨hh, hc⟩, ht, hnd⟩ := h
  rw [List.nodup_cons] at hnd
  refine ⟨⟨next a, if (next a).isSome then q.tail else none⟩, ?_, ?_⟩
  · simp [MiniOs.removeHead, hh]
  · have hkeep : ∀ b ∈ xs, Function.update next a none b = next b := by
      intro b hb
      apply update_of_ne
      rintro rfl
      exact hnd.1 hb
    refine ⟨hc.congr hkeep, ?_, hnd.2⟩
    cases xs with
    | nil =>
      have hna : next a = none := hc
      simp [hna]
    | cons b xs =>
      have hna : next a = some b := hc.1
      simp [hna, ht]

end Rep

/-! ## Places of links -/

/-- The link at a place: the head of the list, or the link field of a node. -/
def linkAt (next : α → Option α) (head : Option α) : Option α → Option α
  | none => head
  | some b => next b

/-- Write the link at a place. -/
def setLink (next : α → Option α) (head : Option α) (place v : Option α) :
    (α → Option α) × Option α :=
  match place with
  | none => (next, v)
  | some b => (Function.update next b v, head)

/-- Walk along the links from `place` to the one that leads to `a`, and make it lead to what
follows `a`.  A list that ends before `a` is left as it is. -/
def unlink (next : α → Option α) (head : Option α) (a : α) :
    Nat → Option α → Option ((α → Option α) × Option α)
  | 0, _ => none
  | fuel + 1, place =>
      match linkAt next head place with
      | none => some (next, head)
      | some b => if b = a then some (setLink next head place (next a))
          else unlink next head a fuel (some b)

variable {next : α → Option α} {head v : Option α} {pre rest post xs : List α} {a : α}

omit [DecidableEq α] in
theorem Chain.linkAt_eq (h : Chain next head (pre ++ rest)) :
    linkAt next head pre.getLast? = rest.head? := by
  induction pre generalizing head with
  | nil => exact h.head_eq
  | cons c pre ih =>
    cases pre with
    | nil => exact Chain.head_eq h.2
    | cons d pre =>
      have hlink := ih h.2
      obtain ⟨b, hb⟩ : ∃ b, (d :: pre).getLast? = some b := ⟨_, List.getLast?_cons⟩
      rw [List.getLast?_cons_cons, hb]
      rw [hb] at hlink
      exact hlink

omit [DecidableEq α] in
theorem Chain.drop (h : Chain next head (pre ++ rest)) : Chain next rest.head? rest := by
  induction pre generalizing head with
  | nil =>
    have hr : Chain next head rest := h
    rw [← hr.head_eq]
    exact hr
  | cons c pre ih => exact ih h.2

/-- The part of a list behind a place is exchanged. -/
theorem Chain.splice (h : Chain next head (pre ++ rest)) (hnd : pre.Nodup)
    (hdisj : ∀ b ∈ pre, b ∉ post) (hv : Chain next v post) :
    Chain (setLink next head pre.getLast? v).1 (setLink next head pre.getLast? v).2
      (pre ++ post) := by
  induction pre generalizing head with
  | nil => exact hv
  | cons c pre ih =>
    rw [List.nodup_cons] at hnd
    have hcpost := hdisj c (List.mem_cons_self ..)
    cases pre with
    | nil =>
      refine ⟨h.1, ?_⟩
      show Chain (Function.update next c v) (Function.update next c v c) post
      rw [update_self]
      refine hv.congr fun b hb => update_of_ne ?_ _ _
      rintro rfl
      exact hcpost hb
    | cons d pre =>
      obtain ⟨b, hb⟩ : ∃ b, (d :: pre).getLast? = some b := ⟨_, List.getLast?_cons⟩
      have hih := ih h.2 hnd.2 fun b hb => hdisj b (List.mem_cons_of_mem _ hb)
      have hcb : c ≠ b := by
        rintro rfl
        exact hnd.1 (List.mem_of_getLast? hb)
      rw [List.getLast?_cons_cons, hb]
      rw [hb] at hih
      refine ⟨h.1, ?_⟩
      show Chain (Function.update next b v) (Function.update next b v c) _
      rw [update_of_ne hcb]
      exact hih

/-- A new node goes to a place: its link is the one found there, and that one leads to it. -/
theorem Chain.insertAt (h : Chain next head (pre ++ rest)) (hnd : (pre ++ rest).Nodup)
    (ha : a ∉ pre ++ rest) :
    Chain (setLink (Function.update next a rest.head?) head pre.getLast? (some a)).1
      (setLink (Function.update next a rest.head?) head pre.getLast? (some a)).2
      (pre ++ a :: rest) := by
  have hkeep : ∀ b ∈ pre ++ rest, Function.update next a rest.head? b = next b := by
    intro b hb
    refine update_of_ne ?_ _ _
    rintro rfl
    exact ha hb
  have h' := h.congr hkeep
  rw [List.nodup_append] at hnd
  refine h'.splice hnd.1 ?_ ⟨rfl, ?_⟩
  · intro b hb hmem
    cases hmem with
    | head => exact ha (List.mem_append_left _ hb)
    | tail _ hr => exact hnd.2.2 b hb b hr rfl
  · rw [update_self]
    exact h'.drop

/-- Links of nodes that are not before the place stay. -/
theorem setLink_of_not_mem {b : α} (hb : b ∉ pre) :
    (setLink next head pre.getLast? v).1 b = next b := by
  cases hl : pre.getLast? with
  | none => rfl
  | some c =>
    refine update_of_ne ?_ _ _
    rintro rfl
    exact hb (List.mem_of_getLast? hl)

/-- The walk reaches the link that leads to `a`. -/
theorem Chain.unlink_eq (h : Chain next head (pre ++ rest)) (ha : a ∈ rest)
    {fuel : Nat} (hf : rest.length ≤ fuel) :
    ∃ mid post, rest = mid ++ a :: post ∧ a ∉ mid ∧
      unlink next head a fuel pre.getLast? = some (setLink next head (pre ++ mid).getLast? (next a)) := by
  induction rest generalizing pre fuel with
  | nil => cases ha
  | cons b rest ih =>
    cases fuel with
    | zero => cases hf
    | succ fuel =>
      have hlink := h.linkAt_eq
      by_cases hab : b = a
      · subst hab
        refine ⟨[], rest, rfl, List.not_mem_nil, ?_⟩
        rw [List.append_nil, unlink, hlink]
        simp
      · have har : a ∈ rest := by
          cases ha with
          | head => exact absurd rfl hab
          | tail _ har => exact har
        have h' : Chain next head ((pre ++ [b]) ++ rest) := by
          rw [List.append_assoc]
          exact h
        obtain ⟨mid, post, hrest, hmid, heq⟩ := ih h' har (Nat.le_of_succ_le_succ hf)
        refine ⟨b :: mid, post, by rw [hrest, List.cons_append], ?_, ?_⟩
        · rw [List.mem_cons, not_or]
          exact ⟨Ne.symm hab, hmid⟩
        · rw [unlink, hlink]
          simp only [List.head?_cons, if_neg hab]
          rw [show pre ++ b :: mid = (pre ++ [b]) ++ mid by simp, ← heq]
          simp

/-- A node is taken out of its list, wherever it stands. -/
theorem Chain.unlink (h : Chain next head xs) (hnd : xs.Nodup) (ha : a ∈ xs) {fuel : Nat}
    (hf : xs.length ≤ fuel) :
    ∃ next' head', MiniOs.unlink next head a fuel none = some (next', head') ∧
      Chain next' head' (xs.erase a) ∧ ∀ b, b ∉ xs → next' b = next b := by
  have h0 : Chain next head ([] ++ xs) := h
  obtain ⟨mid, post, hxs, hmid, heq⟩ := h0.unlink_eq ha hf
  rw [hxs, List.nodup_append] at hnd
  obtain ⟨hndm, hndp, hdisj⟩ := hnd
  have hpost : Chain next (next a) post := by
    rw [hxs] at h
    exact h.drop.2
  refine ⟨_, _, heq, ?_, ?_⟩
  · rw [hxs] at h ⊢
    rw [List.erase_append_right _ hmid, List.erase_cons_head]
    refine h.splice hndm ?_ hpost
    intro b hb hbp
    exact hdisj b hb b (List.mem_cons_of_mem _ hbp) rfl
  · intro b hb
    refine setLink_of_not_mem fun hbm => hb ?_
    rw [hxs]
    exact List.mem_append_left _ hbm

end Chains

end MiniOs
