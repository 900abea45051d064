import Mathlib.Data.List.Nodup
import Mathlib.Logic.Relation

/-!
# Depth-first orders

The order in which a depth-first search comes to the nodes of a graph, which may have circles: a
node comes before all that it leads to, and all that it leads to before what is left to visit. There
is only one such order (`DepthFirst.unique`), no node comes twice in it (`DepthFirst.nodup`), and it
has exactly the nodes that can be reached (`DepthFirst.mem_iff`).
-/

namespace StackScript.Loading

variable {α : Type}

/-- The nodes that a depth-first search comes to from the nodes that are left to visit, in order,
leaving out those that it has seen. -/
inductive DepthFirst (next : α → List α) : List α → List α → List α → Prop where
  /-- Nothing is left to visit. -/
  | done (seen : List α) : DepthFirst next seen [] []
  /-- A node that was seen before is left out. -/
  | again {seen : List α} {node : α} {todo order : List α} (hseen : node ∈ seen)
    (htodo : DepthFirst next seen todo order) : DepthFirst next seen (node :: todo) order
  /-- A new node comes first, then what it leads to, and then what else is left to visit. -/
  | enter {seen : List α} {node : α} {todo inner rest : List α} (hnew : node ∉ seen)
    (hinner : DepthFirst next (seen ++ [node]) (next node) inner)
    (hrest : DepthFirst next (seen ++ node :: inner) todo rest) :
    DepthFirst next seen (node :: todo) (node :: inner ++ rest)

/-- An edge leads from the one node to the other. -/
def LeadsTo (next : α → List α) (node other : α) : Prop := other ∈ next node

namespace DepthFirst

variable {next : α → List α} {seen todo more order other : List α}

/-- There is only one depth-first order. -/
theorem unique (h : DepthFirst next seen todo order) (h' : DepthFirst next seen todo other) :
    order = other := by
  induction h generalizing other with
  | done seen =>
    cases h'
    rfl
  | again hseen _ ih =>
    cases h' with
    | again _ htodo => exact ih htodo
    | enter hnew _ _ => exact absurd hseen hnew
  | enter hnew _ _ ihinner ihrest =>
    cases h' with
    | again hseen _ => exact absurd hseen hnew
    | enter _ hinner hrest =>
      obtain rfl := ihinner hinner
      rw [ihrest hrest]

/-- Visiting some nodes and then some more. -/
theorem append (h : DepthFirst next seen todo order)
    (h' : DepthFirst next (seen ++ order) more other) :
    DepthFirst next seen (todo ++ more) (order ++ other) := by
  induction h with
  | done seen => rwa [List.append_nil] at h'
  | again hseen _ ih => exact .again hseen (ih h')
  | enter hnew hinner _ _ ihrest =>
    rw [List.cons_append, List.append_assoc]
    refine .enter hnew hinner (ihrest ?_)
    rwa [List.append_assoc, List.cons_append]

/-- No node comes twice, and none that was seen before. -/
theorem fresh (h : DepthFirst next seen todo order) (hseen : seen.Nodup) :
    (seen ++ order).Nodup := by
  induction h with
  | done seen => rwa [List.append_nil]
  | again _ _ ih => exact ih hseen
  | @enter seen node todo inner rest hnew _ _ ihinner ihrest =>
    rw [List.cons_append, ← List.cons_append, ← List.append_assoc]
    apply ihrest
    have hinner := ihinner (List.nodup_append_comm.mpr (hseen.cons hnew))
    rwa [List.append_assoc, List.singleton_append] at hinner

theorem nodup (h : DepthFirst next [] todo order) : order.Nodup := h.fresh .nil

/-- Every node of the order can be reached from one that was to be visited. -/
theorem reachable (h : DepthFirst next seen todo order) :
    ∀ node ∈ order, ∃ root ∈ todo, Relation.ReflTransGen (LeadsTo next) root node := by
  induction h with
  | done seen => exact List.forall_mem_nil _
  | again _ _ ih =>
    intro node hnode
    obtain ⟨root, hroot, hleads⟩ := ih node hnode
    exact ⟨root, List.mem_cons_of_mem _ hroot, hleads⟩
  | @enter seen first todo inner rest hnew _ _ ihinner ihrest =>
    intro node hnode
    rcases List.mem_append.mp hnode with hnode | hnode
    · rcases List.mem_cons.mp hnode with rfl | hnode
      · exact ⟨node, List.mem_cons_self, .refl⟩
      · obtain ⟨root, hroot, hleads⟩ := ihinner node hnode
        exact ⟨first, List.mem_cons_self, .head hroot hleads⟩
    · obtain ⟨root, hroot, hleads⟩ := ihrest node hnode
      exact ⟨root, List.mem_cons_of_mem _ hroot, hleads⟩

/-- The nodes to visit are seen or come in the order, and so does what nodes of the order lead
to. -/
theorem closed (h : DepthFirst next seen todo order) :
    (∀ node ∈ todo, node ∈ seen ++ order) ∧
      ∀ node ∈ order, ∀ other ∈ next node, other ∈ seen ++ order := by
  induction h with
  | done seen => exact ⟨List.forall_mem_nil _, List.forall_mem_nil _⟩
  | again hseen _ ih =>
    exact ⟨List.forall_mem_cons.mpr ⟨List.mem_append_left _ hseen, ih.1⟩, ih.2⟩
  | @enter seen first todo inner rest hnew _ _ ihinner ihrest =>
    -- the search of the inner nodes had seen what came before and the first node
    have hkept : ∀ node ∈ seen ++ [first] ++ inner, node ∈ seen ++ (first :: inner ++ rest) := by
      intro node hnode
      rw [List.append_assoc, List.singleton_append] at hnode
      rw [← List.append_assoc]
      exact List.mem_append_left _ hnode
    have hmoved : ∀ node, node ∈ seen ++ first :: inner ++ rest →
        node ∈ seen ++ (first :: inner ++ rest) := by
      intro node hnode
      rwa [← List.append_assoc]
    constructor
    · rw [List.forall_mem_cons]
      exact ⟨List.mem_append_right _ List.mem_cons_self,
        fun node hnode => hmoved node (ihrest.1 node hnode)⟩
    · intro node hnode other hother
      rcases List.mem_append.mp hnode with hnode | hnode
      · rcases List.mem_cons.mp hnode with rfl | hnode
        · exact hkept other (ihinner.1 other hother)
        · exact hkept other (ihinner.2 node hnode other hother)
      · exact hmoved other (ihrest.2 node hnode other hother)

/-- The order has the nodes that can be reached from those to visit. -/
theorem mem_iff (h : DepthFirst next [] todo order) (node : α) :
    node ∈ order ↔ ∃ root ∈ todo, Relation.ReflTransGen (LeadsTo next) root node := by
  constructor
  · exact h.reachable node
  · rintro ⟨root, hroot, hleads⟩
    obtain ⟨htodo, hnext⟩ := h.closed
    rw [List.nil_append] at htodo hnext
    induction hleads with
    | refl => exact htodo root hroot
    | tail _ hedge ih => exact hnext _ ih _ hedge

end DepthFirst

end StackScript.Loading
