import PathCensus.Proofs.Tree.Addressing
import PathCensus.Text.Pieces

/-!
# What a search for a label finds

A search that does not go below what it has found finds the ends of the chains that meet the label
at their end and not before. Their labels lead to different places, and none of these places lies
below another.
-/

namespace PathCensus

/-- The labels meet a given one at their end and not before. -/
def endsAtFirst (label : String) : List String → Bool
  | [] => false
  | name :: rest => if name = label then rest.isEmpty else endsAtFirst label rest

theorem endsAtFirst_iff {label : String} {path : List String} :
    endsAtFirst label path = true ↔ ∃ above, path = above ++ [label] ∧ label ∉ above := by
  induction path with
  | nil => simp [endsAtFirst]
  | cons name rest ih =>
    rw [endsAtFirst]
    by_cases hname : name = label
    · subst hname
      rw [if_pos rfl, List.isEmpty_iff]
      constructor
      · rintro rfl
        exact ⟨[], rfl, List.not_mem_nil⟩
      · rintro ⟨above, he, hnot⟩
        cases above with
        | nil => exact (List.cons.inj he).2
        | cons a above => exact absurd ((List.cons.inj he).1 ▸ List.mem_cons_self) hnot
    · rw [if_neg hname, ih]
      constructor
      · rintro ⟨above, rfl, hnot⟩
        exact ⟨name :: above, rfl, List.not_mem_cons_of_ne_of_not_mem (Ne.symm hname) hnot⟩
      · rintro ⟨above, he, hnot⟩
        cases above with
        | nil => exact absurd (List.cons.inj he).1 hname
        | cons a above =>
          exact ⟨above, (List.cons.inj he).2, fun hmem => hnot (List.mem_cons_of_mem a hmem)⟩

/-- What meets a label for the first time is cut there in one way. -/
theorem endsAtFirst_cancel {label : String} {first second path path' : List String}
    (hf : endsAtFirst label first = true) (hs : endsAtFirst label second = true)
    (h : first ++ path = second ++ path') : first = second ∧ path = path' := by
  obtain ⟨above, rfl, hnot⟩ := endsAtFirst_iff.1 hf
  obtain ⟨above', rfl, hnot'⟩ := endsAtFirst_iff.1 hs
  have hcut : ∀ (above path : List String), label ∉ above →
      (above ++ [label] ++ path).takeWhile (· ≠ label) = above := by
    intro above path hnot
    rw [List.append_assoc]
    exact Text.takeWhile_ne_append hnot (by simp)
  have habove : above = above' := by rw [← hcut above path hnot, h, hcut above' path' hnot']
  subst habove
  exact ⟨rfl, List.append_cancel_left h⟩

namespace Node

variable {V : Type}

/-- The ways from a node to where a label is met for the first time. -/
def firstRoutes (label : String) (node : Node V) : List (List (Node V)) :=
  node.routes.filter fun route => endsAtFirst label (labels route)

/-- The chains below a node to where a label is met for the first time. -/
def entrances (node : Node V) (label : String) : List (List (Node V)) :=
  node.chains.filter fun chain => endsAtFirst label (labels chain)

/-- A node with the label is the first one. -/
theorem firstRoutes_of_label {node : Node V} {label : String} (h : node.label = label) :
    node.firstRoutes label = [[node]] := by
  have hbelow : ((node.visited.flatMap routes).map (node :: ·)).filter
      (fun route => endsAtFirst label (labels route)) = [] := by
    rw [List.filter_eq_nil_iff]
    intro route hr
    obtain ⟨rest, hrest, rfl⟩ := List.mem_map.1 hr
    obtain ⟨c, -, hc⟩ := List.mem_flatMap.1 hrest
    obtain ⟨rest, rfl⟩ := exists_cons_of_mem_routes hc
    simp [labels, endsAtFirst, h]
  rw [firstRoutes, routes_eq, List.filter_cons, hbelow]
  simp [labels, endsAtFirst, h]

/-- From a node with another label the search goes on below it. -/
theorem firstRoutes_of_ne {node : Node V} {label : String} (h : node.label ≠ label) :
    node.firstRoutes label = (node.visited.flatMap (firstRoutes label)).map (node :: ·) := by
  have hstep : ∀ route : List (Node V), endsAtFirst label (labels (node :: route)) =
      endsAtFirst label (labels route) := by
    intro route
    rw [labels, List.map_cons, endsAtFirst, if_neg h]
    rfl
  have hself : endsAtFirst label (labels [node]) = false := hstep []
  rw [firstRoutes, routes_eq, List.filter_cons_of_neg (by simp [hself]), List.filter_map,
    List.filter_flatMap]
  congr 2
  funext c
  exact List.filter_congr fun route _ => hstep route

/-- A search from a stack finds the ends of the ways from its nodes to where the label is met for the
first time. -/
theorem topmostFrom_eq (label : String) (stack : List (Node V)) :
    topmostFrom label stack = (stack.flatMap (firstRoutes label)).filterMap List.getLast? := by
  fun_induction topmostFrom label stack with
  | case1 => rfl
  | case2 node stack h ih =>
    rw [ih, List.flatMap_cons, firstRoutes_of_label h]
    rfl
  | case3 node stack h ih =>
    have hlast : ∀ route ∈ node.visited.flatMap (firstRoutes label),
        (node :: route).getLast? = route.getLast? := by
      intro route hr
      obtain ⟨c, -, hc⟩ := List.mem_flatMap.1 hr
      obtain ⟨rest, rfl⟩ := exists_cons_of_mem_routes (List.mem_filter.1 hc).1
      exact List.getLast?_cons_cons
    rw [ih, reverse_adjacent, List.flatMap_append, List.filterMap_append, List.flatMap_cons,
      List.filterMap_append, firstRoutes_of_ne h, List.filterMap_map]
    exact congrArg (· ++ _) (List.filterMap_congr fun route hr => (hlast route hr).symm)

/-- The topmost nodes with a label are the ends of the chains to where the label is met for the first
time. -/
theorem topmost_eq (node : Node V) (label : String) :
    node.topmost label = (node.entrances label).filterMap List.getLast? := by
  rw [topmost, topmostFrom_eq, reverse_adjacent, entrances, chains_eq, List.filter_flatMap]
  rfl

/-- A node is found exactly if it has the label and no node above it on a chain has. -/
theorem mem_topmost_iff {node m : Node V} {label : String} :
    m ∈ node.topmost label ↔
      m.label = label ∧ ∃ above, above ++ [m] ∈ node.chains ∧ label ∉ labels above := by
  simp only [topmost_eq, List.mem_filterMap, entrances, List.mem_filter, endsAtFirst_iff]
  constructor
  · rintro ⟨chain, ⟨hc, names, hnames, hnot⟩, hlast⟩
    obtain ⟨above, rfl⟩ := List.getLast?_eq_some_iff.1 hlast
    rw [labels, List.map_append, List.map_singleton] at hnames
    obtain ⟨rfl, hm⟩ := List.append_inj' hnames rfl
    exact ⟨List.singleton_inj.1 hm, above, hc, hnot⟩
  · rintro ⟨rfl, above, hc, hnot⟩
    refine ⟨above ++ [m], ⟨hc, labels above, ?_, hnot⟩, List.getLast?_concat⟩
    rw [labels, List.map_append, List.map_singleton, labels]

end Node

end PathCensus
