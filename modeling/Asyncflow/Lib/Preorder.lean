import Mathlib.Data.List.Nodup

/-!
# Pre-order traversals with a stack

Finite trees whose nodes have two lists of children, of which a traversal takes the one
that the label of the node chooses, or none. `Asyncflow.Tree.preorder` is the recursive
traversal, left to right.

A program that traverses the tree with a stack holds a list of trees, the top first: it
takes the tree on top, visits its root and puts the chosen children in its place.
`Asyncflow.Tree.walk_induction` is the induction along such a program, and
`Asyncflow.Tree.preorders_cons` says what one round does to the visits still to come.

A child may be in both lists of its parent. `Asyncflow.Tree.Unshared` says that apart from that
no two parts of the tree have a label in common, so that the edges of both kinds together are
those of a tree, and `Asyncflow.Tree.Apart.round` is what one round keeps of it.
-/

namespace Asyncflow

/-- A tree whose nodes have two lists of children. -/
inductive Tree (α : Type)
  | node (label : α) (success failure : List (Tree α))

namespace Tree

variable {α : Type}

/-- The label of the root. -/
def root : Tree α → α
  | node a _ _ => a

/-- The children that a choice takes. -/
def pick : Option Bool → Tree α → List (Tree α)
  | some true, node _ ss _ => ss
  | some false, node _ _ fs => fs
  | none, _ => []

mutual

/-- **The traversal**: the root first, then the chosen children from left to right. -/
def preorder (choice : α → Option Bool) : Tree α → List α
  | node a ss fs => a :: match choice a with
    | some true => preorders choice ss
    | some false => preorders choice fs
    | none => []

/-- The traversal of several trees. -/
def preorders (choice : α → Option Bool) : List (Tree α) → List α
  | [] => []
  | t :: ts => preorder choice t ++ preorders choice ts

end

mutual

/-- All labels of a tree. -/
def labels : Tree α → List α
  | node a ss fs => a :: (labelsAll ss ++ labelsAll fs)

/-- All labels of several trees. -/
def labelsAll : List (Tree α) → List α
  | [] => []
  | t :: ts => labels t ++ labelsAll ts

end

variable {choice : α → Option Bool} {t : Tree α} {ts us : List (Tree α)} {a : α}

theorem preorder_eq (choice : α → Option Bool) (t : Tree α) :
    t.preorder choice = t.root :: preorders choice (t.pick (choice t.root)) := by
  cases t with
  | node a ss fs =>
    rw [preorder, root]
    rcases hc : choice a with - | b
    · rfl
    · cases b <;> rfl

theorem preorders_append (choice : α → Option Bool) (ts us : List (Tree α)) :
    preorders choice (ts ++ us) = preorders choice ts ++ preorders choice us := by
  induction ts with
  | nil => rfl
  | cons t ts ih => rw [List.cons_append, preorders, preorders, ih, List.append_assoc]

/-- **One round of a traversal with a stack.** -/
theorem preorders_cons (choice : α → Option Bool) (t : Tree α) (ts : List (Tree α)) :
    preorders choice (t :: ts) = t.root :: preorders choice (t.pick (choice t.root) ++ ts) := by
  rw [preorders, preorder_eq, preorders_append, List.cons_append]

/-- **Induction along a traversal with a stack.** -/
theorem walk_induction (choice : α → Option Bool) {P : List (Tree α) → Prop} (hnil : P [])
    (hcons : ∀ t ts, P (t.pick (choice t.root) ++ ts) → P (t :: ts)) (ts : List (Tree α)) :
    P ts := by
  generalize hk : (preorders choice ts).length = k
  induction k generalizing ts with
  | zero =>
    cases ts with
    | nil => exact hnil
    | cons t ts =>
      rw [preorders_cons] at hk
      cases hk
  | succ k ih =>
    cases ts with
    | nil => exact hnil
    | cons t ts =>
      rw [preorders_cons, List.length_cons] at hk
      exact hcons t ts (ih _ (Nat.succ.inj hk))

/-! ### The labels -/

theorem labelsAll_append (ts us : List (Tree α)) :
    labelsAll (ts ++ us) = labelsAll ts ++ labelsAll us := by
  induction ts with
  | nil => rfl
  | cons t ts ih => rw [List.cons_append, labelsAll, labelsAll, ih, List.append_assoc]

theorem root_mem_labels (t : Tree α) : t.root ∈ t.labels := by
  cases t with
  | node a ss fs => exact List.mem_cons_self

theorem mem_labelsAll : a ∈ labelsAll ts ↔ ∃ t ∈ ts, a ∈ t.labels := by
  induction ts with
  | nil => exact iff_of_false List.not_mem_nil fun ⟨_, ht, _⟩ => List.not_mem_nil ht
  | cons t ts ih => rw [labelsAll, List.mem_append, ih, List.exists_mem_cons_iff]

/-- The labels of the chosen children are below the root. -/
theorem labels_of_pick {b : Option Bool} (ht : t ∈ us.flatMap (pick b)) (ha : a ∈ t.labels) :
    ∃ u ∈ us, a ∈ u.labels := by
  obtain ⟨u, hu, htu⟩ := List.mem_flatMap.mp ht
  refine ⟨u, hu, ?_⟩
  cases u with
  | node x ss fs =>
    rcases b with - | b
    · cases htu
    · refine List.mem_cons_of_mem x (List.mem_append.mpr ?_)
      cases b with
      | false => exact .inr (mem_labelsAll.mpr ⟨t, htu, ha⟩)
      | true => exact .inl (mem_labelsAll.mpr ⟨t, htu, ha⟩)

/-- One round leaves only labels that were there. -/
theorem labels_round (b : Option Bool) (t : Tree α) (ts : List (Tree α)) :
    labelsAll (t.pick b ++ ts) ⊆ labelsAll (t :: ts) := by
  intro a ha
  obtain ⟨u, hu, ha⟩ := mem_labelsAll.mp ha
  rw [mem_labelsAll, List.exists_mem_cons_iff]
  rcases List.mem_append.mp hu with hu | hu
  · left
    have hpick : u ∈ [t].flatMap (pick b) := by simpa using hu
    obtain ⟨v, hv, hav⟩ := labels_of_pick hpick ha
    obtain rfl := List.mem_singleton.mp hv
    exact hav
  · exact .inr ⟨u, hu, ha⟩

/-- What is visited is a label. -/
theorem preorders_subset (choice : α → Option Bool) (ts : List (Tree α)) :
    preorders choice ts ⊆ labelsAll ts := by
  induction ts using walk_induction choice with
  | hnil => exact List.nil_subset _
  | hcons t ts ih =>
    rw [preorders_cons]
    refine List.cons_subset.mpr ⟨List.mem_append_left _ t.root_mem_labels, ?_⟩
    exact List.Subset.trans ih (labels_round _ t ts)

/-! ### Trees of both kinds of edges -/

/-- **The edges of both kinds together are those of a tree**: a child may be in both lists of its
parent, but different children have no label in common, and none of them that of the parent. -/
inductive Unshared : Tree α → Prop
  | node {a ss fs} : ss.Nodup → fs.Nodup → (∀ t ∈ ss ++ fs, a ∉ t.labels) →
      (∀ t ∈ ss ++ fs, ∀ u ∈ ss ++ fs, t = u ∨ t.labels.Disjoint u.labels) →
      (∀ t ∈ ss ++ fs, Unshared t) → Unshared (.node a ss fs)

/-- Trees without a common label, none of which is done. -/
structure Apart (ts : List (Tree α)) (done : List α) : Prop where
  unshared : ∀ t ∈ ts, t.Unshared
  disjoint : ts.Pairwise fun t u => t.labels.Disjoint u.labels
  fresh : ∀ a ∈ labelsAll ts, a ∉ done

theorem Unshared.apart (ht : t.Unshared) : Apart [t] [] where
  unshared _ hu := List.mem_singleton.mp hu ▸ ht
  disjoint := List.pairwise_singleton _ _
  fresh _ _ := List.not_mem_nil

/-- The children that a choice takes. -/
theorem Unshared.pick (ht : t.Unshared) (b : Option Bool) : Apart (t.pick b) [t.root] := by
  cases ht with
  | @node a ss fs hss hfs hroot hpair hall =>
    have hapart : ∀ us : List (Tree α), us.Nodup → us ⊆ ss ++ fs → Apart us [a] := by
      intro us hnd hsub
      refine ⟨fun u hu => hall u (hsub hu), ?_, ?_⟩
      · exact hnd.imp_of_mem fun hu hv hne => (hpair _ (hsub hu) _ (hsub hv)).resolve_left hne
      · intro x hx hxa
        obtain ⟨u, hu, hxu⟩ := mem_labelsAll.mp hx
        rw [List.mem_singleton.mp hxa] at hxu
        exact hroot u (hsub hu) hxu
    rcases b with - | b
    · exact hapart [] List.nodup_nil (List.nil_subset _)
    · cases b with
      | false => exact hapart fs hfs (List.subset_append_right _ _)
      | true => exact hapart ss hss (List.subset_append_left _ _)

/-- **One round** keeps the pending trees apart. -/
theorem Apart.round {done : List α} (h : Apart (t :: ts) done) (b : Option Bool) :
    Apart (t.pick b ++ ts) (t.root :: done) := by
  have hp := (h.unshared t List.mem_cons_self).pick b
  obtain ⟨ht, hts⟩ := List.pairwise_cons.mp h.disjoint
  have hold : ∀ u ∈ t.pick b, u.labels ⊆ t.labels := by
    intro u hu a ha
    have hpick : u ∈ [t].flatMap (pick b) := by simpa using hu
    obtain ⟨v, hv, hav⟩ := labels_of_pick hpick ha
    rwa [List.mem_singleton.mp hv] at hav
  refine ⟨?_, List.pairwise_append.mpr ⟨hp.disjoint, hts, ?_⟩, ?_⟩
  · intro u hu
    rcases List.mem_append.mp hu with hu | hu
    · exact hp.unshared u hu
    · exact h.unshared u (List.mem_cons_of_mem t hu)
  · exact fun u hu v hv a ha hav => ht v hv (hold u hu ha) hav
  · intro a ha hmem
    rcases List.mem_cons.mp hmem with rfl | hmem
    · obtain ⟨u, hu, hau⟩ := mem_labelsAll.mp ha
      rcases List.mem_append.mp hu with hu | hu
      · exact hp.fresh _ (mem_labelsAll.mpr ⟨u, hu, hau⟩) List.mem_cons_self
      · exact ht u hu t.root_mem_labels hau
    · exact h.fresh a (labels_round b t ts ha) hmem

/-- The roots of trees that are apart are different. -/
theorem Apart.nodup_roots {done : List α} (h : Apart ts done) : (ts.map root).Nodup := by
  refine List.Pairwise.map root (fun u v huv he => ?_) h.disjoint
  exact huv u.root_mem_labels (he ▸ v.root_mem_labels)

/-- Nothing is visited twice. -/
theorem Apart.nodup_preorders {done : List α} (h : Apart ts done) (choice : α → Option Bool) :
    (preorders choice ts).Nodup := by
  induction ts using walk_induction choice generalizing done with
  | hnil => exact List.nodup_nil
  | hcons t ts ih =>
    have hr := h.round (choice t.root)
    rw [preorders_cons]
    refine List.nodup_cons.mpr ⟨fun hmem => ?_, ih hr⟩
    exact hr.fresh _ (preorders_subset choice _ hmem) List.mem_cons_self

end Tree

end Asyncflow
