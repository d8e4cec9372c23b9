import PathCensus.Census.Basic
import PathCensus.Proofs.Counts.Lookup
import PathCensus.Proofs.Tree.Reaching

/-!
# What a deposit changes

A census is seen through the counts at the end of each path. A deposit along a path adds the counts
of its steps at the ends of the path's own beginnings, makes nodes there where they are missing, and
changes nothing elsewhere. Many deposits add up, in any order.
-/

namespace PathCensus

/-- The sum of two places, either of which may be missing. -/
abbrev join? : Option Counts → Option Counts → Option Counts :=
  Option.merge (· ∪ ·)

instance : Std.Commutative (α := Counts) (· ∪ ·) := ⟨Counts.union_comm⟩

instance : Std.Associative (α := Counts) (· ∪ ·) := ⟨Counts.union_assoc⟩

@[simp] theorem none_join? (counts : Option Counts) : join? none counts = counts :=
  Option.merge_none_left

@[simp] theorem join?_none (counts : Option Counts) : join? counts none = counts :=
  Option.merge_none_right

@[simp] theorem some_join?_some (a b : Counts) : join? (some a) (some b) = some (a ∪ b) := rfl

theorem join?_assoc (a b c : Option Counts) : join? (join? a b) c = join? a (join? b c) :=
  Std.Associative.assoc _ _ _

theorem join?_right_comm (a b c : Option Counts) : join? (join? a b) c = join? (join? a c) b := by
  have hcomm : join? b c = join? c b := Std.Commutative.comm _ _
  rw [join?_assoc, hcomm, join?_assoc]

/-- The part of a deposit that goes to the end of `labels`, if the deposit passes there. -/
def share : List String → List (String × Counts) → Option Counts
  | label :: labels, (name, counts) :: rest =>
    if name = label then
      if labels = [] then some counts else share labels rest
    else none
  | _, _ => none

/-- The parts of several deposits that go to the end of `labels`. -/
def shares (labels : List String) (deposits : List (List (String × Counts))) : Option Counts :=
  deposits.foldr (fun path sum => join? (share labels path) sum) none

@[simp] theorem shares_nil (labels : List String) : shares labels [] = none := rfl

theorem shares_cons (labels : List String) (path : List (String × Counts))
    (rest : List (List (String × Counts))) :
    shares labels (path :: rest) = join? (share labels path) (shares labels rest) := rfl

theorem shares_append (labels : List String) (first second : List (List (String × Counts))) :
    shares labels (first ++ second) = join? (shares labels first) (shares labels second) := by
  induction first with
  | nil => simp
  | cons path rest ih =>
    rw [List.cons_append, shares_cons, ih, shares_cons, join?_assoc]

/-- What belongs to several things adds what belongs to each of them. -/
theorem shares_flatMap {α : Type} (labels : List String) (items : List α)
    (deposits : α → List (List (String × Counts))) :
    shares labels (items.flatMap deposits) =
      (items.map fun item => shares labels (deposits item)).foldr join? none := by
  induction items with
  | nil => rfl
  | cons item rest ih =>
    rw [List.flatMap_cons, shares_append, ih, List.map_cons, List.foldr_cons]

@[simp] theorem isSome_join? {a b : Option Counts} :
    (join? a b).isSome ↔ a.isSome ∨ b.isSome := by
  cases a <;> cases b <;> simp

/-- Several places joined are there if one of them is. -/
theorem isSome_foldr_join? {places : List (Option Counts)} :
    (places.foldr join? none).isSome ↔ ∃ place ∈ places, place.isSome := by
  induction places with
  | nil => simp
  | cons place rest ih => simp [ih]

/-- A deposit passes the ends of its own beginnings. -/
theorem isSome_share {labels : List String} {path : List (String × Counts)} :
    (share labels path).isSome ↔ labels ≠ [] ∧ labels <+: path.map Prod.fst := by
  induction path generalizing labels with
  | nil =>
    cases labels with
    | nil => simp [share]
    | cons label labels => simp [share]
  | cons step rest ih =>
    obtain ⟨name, counts⟩ := step
    cases labels with
    | nil => simp [share]
    | cons label labels =>
      rw [share]
      by_cases hname : name = label
      · by_cases hlast : labels = []
        · simp [hname, hlast]
        · simp [hname, hlast, ih, List.cons_prefix_cons]
      · simp [hname, List.cons_prefix_cons, Ne.symm hname]

/-- Some of several deposits passes the end of `labels` if the labels begin its path. -/
theorem isSome_shares {labels : List String} {deposits : List (List (String × Counts))} :
    (shares labels deposits).isSome ↔
      labels ≠ [] ∧ ∃ path ∈ deposits, labels <+: path.map Prod.fst := by
  induction deposits with
  | nil => simp
  | cons path rest ih =>
    rw [shares_cons, isSome_join?, isSome_share, ih]
    simp only [List.mem_cons, exists_eq_or_imp]
    exact and_or_left.symm

/-- Counts that are added a number of times, missing if they are never added. -/
def repeated : Nat → Counts → Option Counts
  | 0, _ => none
  | times + 1, counts => join? (some counts) (repeated times counts)

@[simp] theorem repeated_zero (counts : Counts) : repeated 0 counts = none := rfl

theorem repeated_succ (times : Nat) (counts : Counts) :
    repeated (times + 1) counts = join? (some counts) (repeated times counts) := rfl

/-- Deposits that start with one step add its counts once each, and go on below it. -/
theorem shares_map_cons (name : String) (counts : Counts) (label : String) (path : List String)
    (deposits : List (List (String × Counts))) :
    shares (label :: path) (deposits.map ((name, counts) :: ·)) =
      if name = label then
        if path = [] then repeated deposits.length counts else shares path deposits
      else none := by
  induction deposits with
  | nil => simp
  | cons first rest ih =>
    rw [List.map_cons, shares_cons, ih, share]
    by_cases hname : name = label
    · by_cases hlast : path = []
      · simp [hname, hlast, repeated_succ]
      · simp [hname, hlast, shares_cons]
    · simp [hname]

/-- Deposits that belong to nodes with distinct labels add, below a label, what those of the node
with that label add. -/
theorem shares_flatMap_of_nodup {nodes : List (Node Counts)}
    (hd : (nodes.map Node.label).Nodup) {name : String} {path : List String}
    {deposits : Node Counts → List (List (String × Counts))} {view : Node Counts → Option Counts}
    (h : ∀ c ∈ nodes, shares (name :: path) (deposits c) =
      if c.label = name then view c else none) :
    shares (name :: path) (nodes.flatMap deposits) =
      (nodes.find? fun c => c.label = name).bind view := by
  induction nodes with
  | nil => rfl
  | cons c rest ih =>
    rw [List.map_cons, List.nodup_cons] at hd
    rw [List.flatMap_cons, shares_append, h c List.mem_cons_self,
      ih hd.2 fun d hm => h d (List.mem_cons_of_mem c hm), List.find?_cons]
    by_cases hname : c.label = name
    · have hnone : rest.find? (fun d => d.label = name) = none := by
        rw [List.find?_eq_none]
        intro d hm he
        have hsame : d.label = c.label := (of_decide_eq_true he).trans hname.symm
        exact hd.1 (List.mem_map.2 ⟨d, hm, hsame⟩)
      simp [hname, hnone]
    · simp [hname]

/-! ## One deposit -/

@[simp] theorem deposit_label (path : List (String × Counts)) (node : Node Counts) :
    (deposit path node).label = node.label := by
  cases path with
  | nil => rfl
  | cons step rest => exact Node.alterChild_label node step.1

@[simp] theorem deposit_value (path : List (String × Counts)) (node : Node Counts) :
    (deposit path node).value = node.value := by
  cases path with
  | nil => rfl
  | cons step rest => exact Node.alterChild_value node step.1

theorem deposit_cons (name : String) (counts : Counts) (rest : List (String × Counts))
    (node : Node Counts) :
    deposit ((name, counts) :: rest) node = node.alterChild name (freshCounts name) fun child =>
      deposit rest { child with value := child.value ∪ counts } := rfl

private theorem valueAt?_withValue (node : Node Counts) (value : Counts) {labels : List String}
    (h : labels ≠ []) : ({ node with value } : Node Counts).valueAt? labels =
      node.valueAt? labels := by
  cases labels with
  | nil => exact absurd rfl h
  | cons label labels => rfl

private theorem valueAt?_freshCounts (name : String) {labels : List String} (h : labels ≠ []) :
    (freshCounts name).valueAt? labels = none := by
  cases labels with
  | nil => exact absurd rfl h
  | cons label labels => rfl

/-- A deposit adds its part at the end of every path. -/
theorem valueAt?_deposit (path : List (String × Counts)) (node : Node Counts)
    {labels : List String} (h : labels ≠ []) :
    (deposit path node).valueAt? labels = join? (node.valueAt? labels) (share labels path) := by
  induction path generalizing node labels with
  | nil =>
    cases labels with
    | nil => exact absurd rfl h
    | cons label labels => simp [deposit, share]
  | cons step rest ih =>
    obtain ⟨name, counts⟩ := step
    cases labels with
    | nil => exact absurd rfl h
    | cons label labels =>
      have hstep : ∀ c : Node Counts,
          (deposit rest { c with value := c.value ∪ counts }).label = c.label :=
        fun c => deposit_label rest _
      have hfresh : (freshCounts name).label = name := rfl
      rw [deposit_cons, Node.valueAt?_cons, Node.valueAt?_cons, share]
      by_cases hname : name = label
      · subst hname
        rw [Node.child?_alterChild_self node hfresh hstep, if_pos rfl, Option.bind_some]
        by_cases hlast : labels = []
        · subst hlast
          rw [if_pos rfl, Node.valueAt?, Node.descend?_nil, Option.map_some, deposit_value]
          cases node.child? name with
          | none => simp [freshCounts, Node.leaf, Counts.empty_union]
          | some c => simp [Node.valueAt?]
        · rw [if_neg hlast, ih _ hlast, valueAt?_withValue _ _ hlast]
          cases node.child? name with
          | none => simp [valueAt?_freshCounts name hlast]
          | some c => rfl
      · rw [Node.child?_alterChild_of_ne node (Ne.symm hname) hfresh hstep, if_neg hname]
        rw [join?_none]

/-- A property that changes of children, new nodes and the deposited counts respect holds
throughout after a deposit. -/
theorem Node.Everywhere.deposit {P : Node Counts → Prop}
    (halter : ∀ node name f, (∀ c, (f c).label = c.label) → P node →
      P (node.alterChild name (freshCounts name) f))
    (hfresh : ∀ name, P (freshCounts name)) {path : List (String × Counts)}
    (hadd : ∀ step ∈ path, ∀ node : Node Counts, P node →
      P { node with value := node.value ∪ step.2 })
    {node : Node Counts} (h : Everywhere P node) : Everywhere P (deposit path node) := by
  induction path generalizing node with
  | nil => exact h
  | cons step rest ih =>
    obtain ⟨name, counts⟩ := step
    have hchild : ∀ c, Everywhere P c →
        Everywhere P (PathCensus.deposit rest { c with value := c.value ∪ counts }) := by
      intro c hc
      refine ih (fun step hs => hadd step (List.mem_cons_of_mem _ hs)) ?_
      exact .intro (hadd (name, counts) List.mem_cons_self c hc.here) fun d hd => hc.child hd
    rw [deposit_cons]
    refine h.alterChild rfl ?_ (fun c _ hc => hchild c hc) (hchild _ ?_)
    · exact halter node name _ (fun c => deposit_label rest _) h.here
    · exact .intro (hfresh name) nofun

/-- A deposit keeps one child per label. -/
theorem Node.Keyed.deposit {node : Node Counts} (h : node.Keyed)
    (path : List (String × Counts)) : (PathCensus.deposit path node).Keyed := by
  refine Everywhere.deposit (fun node name f hf hn => hn.alterChild rfl hf) ?_ ?_ h
  · exact fun name => ⟨rfl, List.nodup_nil⟩
  · exact fun step _ node hn => ⟨hn.layout, hn.distinct⟩

/-- Counted trees stay below a bound that holds for the deposited counts. -/
theorem Node.Everywhere.deposit_idsBelow {bound : Nat} {node : Node Counts}
    (h : node.Everywhere fun n => n.value.IdsBelow bound) {path : List (String × Counts)}
    (hpath : ∀ step ∈ path, step.2.IdsBelow bound) :
    (PathCensus.deposit path node).Everywhere fun n => n.value.IdsBelow bound := by
  refine Everywhere.deposit ?_ ?_ ?_ h
  · intro node name f _ hn
    rwa [Node.alterChild_value]
  · exact fun name => Counts.idsBelow_empty bound
  · exact fun step hs node hn => hn.union (hpath step hs)

namespace Census

/-! ## Many deposits -/

/-- The counts at the end of a path, if it leads somewhere. -/
def countsAt? (census : Census) (labels : List String) : Option Counts :=
  census.root.valueAt? labels

theorem countsAt?_eq (census : Census) (labels : List String) :
    census.countsAt? labels = (census.find? labels).map Node.value := rfl

/-- A path leads somewhere exactly if there are counts at its end. -/
theorem isSome_countsAt? (census : Census) (labels : List String) :
    (census.countsAt? labels).isSome = (census.find? labels).isSome := by
  rw [countsAt?_eq, Option.isSome_map]

/-- A census without counts has none at the end of any path. -/
theorem countsAt?_ofTreeCount (n : Nat) {labels : List String} (h : labels ≠ []) :
    (ofTreeCount n).countsAt? labels = none := by
  cases labels with
  | nil => exact absurd rfl h
  | cons label labels => rfl

theorem treeCount_foldl_put (census : Census) (deposits : List (List (String × Counts))) :
    (deposits.foldl put census).treeCount = census.treeCount := by
  induction deposits generalizing census with
  | nil => rfl
  | cons path rest ih => exact ih _

/-- Deposits add all their parts at the end of every path. -/
theorem countsAt?_foldl_put (census : Census) (deposits : List (List (String × Counts)))
    {labels : List String} (h : labels ≠ []) :
    (deposits.foldl put census).countsAt? labels =
      join? (census.countsAt? labels) (shares labels deposits) := by
  induction deposits generalizing census with
  | nil => simp
  | cons path rest ih =>
    rw [List.foldl_cons, ih, shares_cons, countsAt?, put, valueAt?_deposit path _ h, join?_assoc]
    rfl

end Census

end PathCensus
