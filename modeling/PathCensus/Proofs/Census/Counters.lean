import PathCensus.Census.Counters
import PathCensus.Proofs.Census.Querying
import PathCensus.Proofs.Tree.Building

/-!
# Sums that fit into counters

Counters of 64 bits hold what is added to them if it has room there, whatever they do otherwise.
Checked counters give up whenever something has no room. Wrapping counters hold the remainders of
the sums, since remainders can be taken before or after sums.
-/

namespace PathCensus

theorem Counters.hold?_of_lt (counters : Counters) {n : Nat} (h : n < counterLimit) :
    counters.hold? n = some n := by
  cases counters with
  | checked => exact if_pos h
  | wrapping => exact congrArg some (Nat.mod_eq_of_lt h)

/-! ## Room -/

/-- What is added to the counts at a place has room in their counters. -/
def HasRoom (held adds : Option Counts) : Prop :=
  ∀ tree, (adds.bind (·.count? tree)).isSome → countIn held tree + countIn adds tree < counterLimit

theorem hasRoom_none (held : Option Counts) : HasRoom held none := by
  intro tree h
  cases h

/-- Room depends on the counts that are held. -/
theorem hasRoom_congr {held other : Option Counts}
    (h : ∀ tree, countIn held tree = countIn other tree) (adds : Option Counts) :
    HasRoom held adds ↔ HasRoom other adds :=
  forall_congr' fun tree => by rw [h tree]

private theorem countIn_eq_zero {counts : Option Counts} {tree : Nat}
    (h : ¬(counts.bind (·.count? tree)).isSome) : countIn counts tree = 0 := by
  cases counts with
  | none => rfl
  | some counts =>
    rw [Option.bind_some, Option.not_isSome_iff_eq_none] at h
    rw [countIn_some, Counts.get_eq, h, Option.getD_none]

private theorem isSome_bind_join? {a b : Option Counts} {tree : Nat} :
    ((join? a b).bind (·.count? tree)).isSome ↔
      (a.bind (·.count? tree)).isSome ∨ (b.bind (·.count? tree)).isSome := by
  cases a <;> cases b <;> simp

/-- What is added in two steps has room if both steps have. -/
theorem hasRoom_join_iff {held first second : Option Counts} :
    HasRoom held (join? first second) ↔
      HasRoom held first ∧ HasRoom (join? held first) second := by
  simp only [HasRoom, isSome_bind_join?, countIn_join]
  constructor
  · intro h
    refine ⟨fun tree hfirst => ?_, fun tree hsecond => ?_⟩
    · have hsum := h tree (.inl hfirst)
      omega
    · have hsum := h tree (.inr hsecond)
      omega
  · rintro ⟨hfirst, hsecond⟩ tree hadds
    by_cases hs : (second.bind (·.count? tree)).isSome
    · have hsum := hsecond tree hs
      omega
    · have hsum := hfirst tree (hadds.resolve_right hs)
      rw [countIn_eq_zero hs]
      omega

/-- Where counters hold what they should, there is room for what keeps below the limit. -/
theorem hasRoom_iff {held adds : Option Counts} (h : ∀ tree, countIn held tree < counterLimit) :
    HasRoom held adds ↔ ∀ tree, countIn held tree + countIn adds tree < counterLimit := by
  refine forall_congr' fun tree => ⟨fun hroom => ?_, fun hsum _ => hsum⟩
  by_cases hs : (adds.bind (·.count? tree)).isSome
  · exact hroom hs
  · rw [countIn_eq_zero hs]
    exact h tree

/-- Where nothing is held yet, there is room for what keeps below the limit itself. -/
theorem hasRoom_fresh_iff {adds : Option Counts} :
    HasRoom none adds ↔ ∀ tree, countIn adds tree < counterLimit := by
  have hzero : ∀ tree, countIn none tree < counterLimit := fun _ => by rw [countIn_none]; decide
  rw [hasRoom_iff hzero]
  simp only [countIn_none, Nat.zero_add]

/-! ## Adding where there is room -/

namespace Counts

variable {counters : Counters} {counts : Counts}

theorem get_add_self (counts : Counts) (tree count : Nat) :
    (counts.add tree count).get tree = counts.get tree + count := by
  rw [get_eq, get_eq, count?_add_self]
  cases counts.count? tree <;> simp

theorem addWith?_of_lt {tree count : Nat} (h : counts.get tree + count < counterLimit) :
    counts.addWith? counters tree count = some (counts.add tree count) := by
  rw [addWith?, counters.hold?_of_lt h, Option.map_some]
  exact congrArg (fun table => some (Counts.mk table)) (SortedTable.alter_congr rfl)

/-- Counts do not fall when pairs are added. -/
theorem get_le_get_addAll (counts : Counts) (pairs : List (Nat × Nat)) (tree : Nat) :
    counts.get tree ≤ (counts.addAll pairs).get tree := by
  rw [get_eq, get_eq, count?_addAll]
  cases counts.count? tree <;> cases tally? pairs tree <;> simp

/-- Pairs are added if the counts of their trees have room in the end. -/
theorem addAllWith?_of_lt {pairs : List (Nat × Nat)}
    (h : ∀ p ∈ pairs, (counts.addAll pairs).get p.1 < counterLimit) :
    counts.addAllWith? counters pairs = some (counts.addAll pairs) := by
  induction pairs generalizing counts with
  | nil => rfl
  | cons p rest ih =>
    have hfirst : counts.get p.1 + p.2 < counterLimit := by
      rw [← get_add_self]
      exact Nat.lt_of_le_of_lt (get_le_get_addAll _ rest p.1) (h p List.mem_cons_self)
    rw [addAllWith?, List.foldlM_cons, addWith?_of_lt hfirst]
    exact ih fun q hq => h q (List.mem_cons_of_mem p hq)

/-- Checked counters do not add pairs without room. -/
theorem lt_of_addAllWith?_checked {pairs : List (Nat × Nat)}
    (h : (counts.addAllWith? .checked pairs).isSome) :
    ∀ p ∈ pairs, (counts.addAll pairs).get p.1 < counterLimit := by
  induction pairs generalizing counts with
  | nil => exact fun p hp => absurd hp List.not_mem_nil
  | cons p rest ih =>
    have hfirst : counts.get p.1 + p.2 < counterLimit := by
      by_contra hno
      rw [addAllWith?, List.foldlM_cons, addWith?, Counters.hold?, if_neg hno] at h
      cases h
    rw [addAllWith?, List.foldlM_cons, addWith?_of_lt hfirst] at h
    have hrest := ih h
    intro q hq
    by_cases hmem : ∃ r ∈ rest, r.1 = q.1
    · obtain ⟨r, hr, hsame⟩ := hmem
      exact hsame ▸ hrest r hr
    · have hp : q = p := (List.mem_cons.1 hq).resolve_right fun hr => hmem ⟨q, hr, rfl⟩
      subst hp
      have hnone : tally? rest q.1 = none := by
        rw [tally?, if_neg]
        rintro hm
        obtain ⟨r, hr, hsame⟩ := List.mem_map.1 hm
        exact hmem ⟨r, hr, hsame⟩
      have hsum : ((counts.add q.1 q.2).addAll rest).get q.1 = (counts.add q.1 q.2).get q.1 := by
        rw [get_eq, get_eq, count?_addAll, hnone, plus?_none]
      rw [← get_add_self, ← hsum] at hfirst
      exact hfirst

theorem hasRoom_some_iff {a b : Counts} :
    HasRoom (some a) (some b) ↔ ∀ p ∈ b.toList, (a ∪ b).get p.1 < counterLimit := by
  simp only [HasRoom, Option.bind_some, countIn_some, ← get_union]
  constructor
  · intro h p hp
    exact h p.1 (Option.isSome_of_eq_some (count?_eq_some_iff.2 hp))
  · intro h tree hs
    obtain ⟨count, hc⟩ := Option.isSome_iff_exists.1 hs
    exact h (tree, count) (count?_eq_some_iff.1 hc)

theorem unionWith?_of_hasRoom {a b : Counts} (h : HasRoom (some a) (some b)) :
    a.unionWith? counters b = some (a ∪ b) :=
  addAllWith?_of_lt (hasRoom_some_iff.1 h)

theorem hasRoom_of_unionWith?_checked {a b : Counts} (h : (a.unionWith? .checked b).isSome) :
    HasRoom (some a) (some b) :=
  hasRoom_some_iff.2 (lt_of_addAllWith?_checked h)

end Counts

/-- Only the child with the label is changed. -/
theorem Node.alterChild_congr {V : Type} {node fresh : Node V} {label : String}
    {f g : Node V → Node V} (hfresh : fresh.label = label)
    (h : f ((node.child? label).getD fresh) = g ((node.child? label).getD fresh)) :
    node.alterChild label fresh f = node.alterChild label fresh g := by
  cases hc : node.child? label with
  | none =>
    rw [hc, Option.getD_none] at h
    rw [alterChild_of_none hc hfresh, alterChild_of_none hc hfresh, h]
  | some c =>
    rw [hc, Option.getD_some] at h
    obtain ⟨hl, before, after, hsplit, hb⟩ := child?_eq_some_iff_append.1 hc
    rw [alterChild_of_append hsplit hl hb, alterChild_of_append hsplit hl hb, h]

/-- A change that is not given up is a change. -/
theorem Node.alterChild?_eq_some {V : Type} {node fresh : Node V} {label : String}
    {f : Node V → Option (Node V)} {g : Node V → Node V} (hfresh : fresh.label = label)
    (h : f ((node.child? label).getD fresh) = some (g ((node.child? label).getD fresh))) :
    node.alterChild? label fresh f = some (node.alterChild label fresh g) := by
  rw [alterChild?, h, Option.map_some]
  exact congrArg some (alterChild_congr hfresh rfl)

/-- What a tree is counted for at the end of a path is what it is counted for from the child on. -/
theorem countIn_valueAt?_cons (node : Node Counts) (label : String) (labels : List String)
    (tree : Nat) :
    countIn (node.valueAt? (label :: labels)) tree =
      countIn (((node.child? label).getD (freshCounts label)).valueAt? labels) tree := by
  rw [Node.valueAt?_cons]
  cases node.child? label with
  | some c => rfl
  | none =>
    cases labels with
    | nil => rfl
    | cons name labels => rfl

/-- A deposit has room if its first step has room in the child and the other steps have room
below. -/
theorem hasRoom_deposit_cons {node child : Node Counts} {label : String} {counts : Counts}
    {rest : List (String × Counts)}
    (hchild : (node.child? label).getD (freshCounts label) = child) :
    (∀ labels, labels ≠ [] →
        HasRoom (node.valueAt? labels) (share labels ((label, counts) :: rest))) ↔
      HasRoom (some child.value) (some counts) ∧
        ∀ labels, labels ≠ [] → HasRoom
          (({ child with value := child.value ∪ counts } : Node Counts).valueAt? labels)
          (share labels rest) := by
  have hheld : ∀ labels adds, HasRoom (node.valueAt? (label :: labels)) adds ↔
      HasRoom (child.valueAt? labels) adds := fun labels adds =>
    hasRoom_congr (fun tree => by rw [countIn_valueAt?_cons, hchild]) adds
  have hbelow : ∀ labels, labels ≠ [] →
      ({ child with value := child.value ∪ counts } : Node Counts).valueAt? labels =
        child.valueAt? labels := by
    intro labels hne
    obtain ⟨name, others, rfl⟩ := List.exists_cons_of_ne_nil hne
    rfl
  constructor
  · intro h
    refine ⟨?_, fun labels hne => ?_⟩
    · have hhere := (hheld [] _).1 (h [label] (List.cons_ne_nil _ _))
      rwa [share, if_pos rfl, if_pos rfl] at hhere
    · have hlater := (hheld labels _).1 (h (label :: labels) (List.cons_ne_nil _ _))
      rwa [share, if_pos rfl, if_neg hne, ← hbelow labels hne] at hlater
  · rintro ⟨hhere, hlater⟩ labels hne
    obtain ⟨name, others, rfl⟩ := List.exists_cons_of_ne_nil hne
    rw [share]
    by_cases hname : label = name
    · subst hname
      rw [if_pos rfl, hheld]
      by_cases hlast : others = []
      · rw [if_pos hlast, hlast]
        exact hhere
      · rw [if_neg hlast, ← hbelow others hlast]
        exact hlater others hlast
    · rw [if_neg hname]
      exact hasRoom_none _

/-- A deposit that has room is made. -/
theorem depositWith?_of_hasRoom {counters : Counters} {path : List (String × Counts)}
    {node : Node Counts}
    (h : ∀ labels, labels ≠ [] → HasRoom (node.valueAt? labels) (share labels path)) :
    depositWith? counters path node = some (deposit path node) := by
  induction path generalizing node with
  | nil => rfl
  | cons step rest ih =>
    obtain ⟨hhere, hbelow⟩ := (hasRoom_deposit_cons rfl).1 h
    refine Node.alterChild?_eq_some rfl ?_
    rw [Counts.unionWith?_of_hasRoom hhere, Option.bind_some, ih hbelow]

/-- Checked counters take no deposit without room. -/
theorem hasRoom_of_depositWith?_checked {path : List (String × Counts)} {node : Node Counts}
    (h : (depositWith? .checked path node).isSome) :
    ∀ labels, labels ≠ [] → HasRoom (node.valueAt? labels) (share labels path) := by
  induction path generalizing node with
  | nil =>
    intro labels hne
    obtain ⟨name, others, rfl⟩ := List.exists_cons_of_ne_nil hne
    exact hasRoom_none _
  | cons step rest ih =>
    rw [depositWith?, Node.alterChild?, Option.isSome_map] at h
    cases hu : ((node.child? step.1).getD (freshCounts step.1)).value.unionWith? .checked
        step.2 with
    | none => simp [hu] at h
    | some value =>
      have hhere := Counts.hasRoom_of_unionWith?_checked (Option.isSome_of_eq_some hu)
      rw [Counts.unionWith?_of_hasRoom hhere] at hu
      rw [Counts.unionWith?_of_hasRoom hhere, Option.bind_some] at h
      exact (hasRoom_deposit_cons rfl).2 ⟨hhere, ih h⟩

/-! ## Remainders -/

/-- The counts that wrapping counters hold. -/
def Counts.wrapped (counts : Counts) : Counts :=
  ⟨counts.table.mapValues (· % counterLimit)⟩

namespace Counts

@[simp] theorem count?_wrapped (counts : Counts) (tree : Nat) :
    counts.wrapped.count? tree = (counts.count? tree).map (· % counterLimit) :=
  SortedTable.find?_mapValues _ _ _

@[simp] theorem get_wrapped (counts : Counts) (tree : Nat) :
    counts.wrapped.get tree = counts.get tree % counterLimit := by
  rw [get_eq, get_eq, count?_wrapped]
  cases counts.count? tree <;> rfl

/-- Wrapping counters hold the remainder of a sum. -/
theorem addWith?_wrapping (counts : Counts) (tree count : Nat) :
    counts.wrapped.addWith? .wrapping tree count = some (counts.add tree count).wrapped := by
  have hsum : (counts.wrapped.get tree + count) % counterLimit =
      (counts.get tree + count) % counterLimit := by
    rw [get_wrapped, Nat.mod_add_mod]
  rw [addWith?, Counters.hold?, Option.map_some, hsum]
  refine congrArg some (ext_count? fun other => ?_)
  by_cases h : other = tree
  · subst h
    rw [count?_wrapped, count?_add_self, count?, SortedTable.find?_alter_self, get_eq]
    cases counts.count? other <;> simp
  · rw [count?_wrapped, count?_add_of_ne counts h, ← count?_wrapped]
    exact counts.wrapped.table.find?_alter_of_ne h _

theorem unionWith?_wrapping (a b : Counts) :
    a.wrapped.unionWith? .wrapping b = some (a ∪ b).wrapped := by
  have hall : ∀ (pairs : List (Nat × Nat)) (counts : Counts),
      counts.wrapped.addAllWith? .wrapping pairs = some (counts.addAll pairs).wrapped := by
    intro pairs
    induction pairs with
    | nil => exact fun _ => rfl
    | cons p rest ih =>
      intro counts
      rw [addAllWith?, List.foldlM_cons, addWith?_wrapping]
      exact ih (counts.add p.1 p.2)
  exact hall b.toList a

end Counts

namespace Node

variable {V W : Type} {g : V → W}

theorem child?_mapValues (node : Node V) (label : String) :
    (node.mapValues g).child? label = (node.child? label).map (mapValues g) := by
  rw [mapValues_eq, child?, child?, List.find?_map]
  congr 2
  funext c
  rw [Function.comp_apply, mapValues_eq]

theorem valueAt?_mapValues (node : Node V) (labels : List String) :
    (node.mapValues g).valueAt? labels = (node.valueAt? labels).map g := by
  induction labels generalizing node with
  | nil => rw [mapValues_eq]; rfl
  | cons label labels ih =>
    rw [valueAt?_cons, valueAt?_cons, child?_mapValues]
    cases node.child? label with
    | none => rfl
    | some c => exact ih c

/-- A change of a child and a change of all values can be made in either order. -/
theorem alterChild_mapValues {node fresh : Node V} {label : String} (hfresh : fresh.label = label)
    {f : Node V → Node V} :
    (node.alterChild label fresh f).mapValues g =
      (node.mapValues g).alterChild label (fresh.mapValues g)
        fun _ => (f ((node.child? label).getD fresh)).mapValues g := by
  have hlabel : ∀ node : Node V, (node.mapValues g).label = node.label :=
    fun node => by rw [mapValues_eq]
  cases hc : node.child? label with
  | none =>
    have hnone : (node.mapValues g).child? label = none := by rw [child?_mapValues, hc]; rfl
    rw [alterChild_of_none hc hfresh, alterChild_of_none hnone ((hlabel fresh).trans hfresh),
      mapValues_eq, mapValues_eq]
    simp
  | some c =>
    obtain ⟨hl, before, after, hsplit, hb⟩ := child?_eq_some_iff_append.1 hc
    have hmapped : (node.mapValues g).children =
        before.map (mapValues g) ++ c.mapValues g :: after.map (mapValues g) := by
      rw [mapValues_eq]
      simp [hsplit]
    have hbefore : ∀ b ∈ before.map (mapValues g), b.label ≠ label := by
      intro b hm
      obtain ⟨old, ho, rfl⟩ := List.mem_map.1 hm
      rw [hlabel]
      exact hb old ho
    rw [alterChild_of_append hsplit hl hb,
      alterChild_of_append hmapped ((hlabel c).trans hl) hbefore, mapValues_eq, mapValues_eq]
    simp

end Node

/-- Wrapping counters hold the remainders of what a deposit makes. -/
theorem depositWith?_wrapping (path : List (String × Counts)) (node : Node Counts) :
    depositWith? .wrapping path (node.mapValues Counts.wrapped) =
      some ((deposit path node).mapValues Counts.wrapped) := by
  induction path generalizing node with
  | nil => rfl
  | cons step rest ih =>
    obtain ⟨label, counts⟩ := step
    have hlabel : (freshCounts label).label = label := rfl
    have hfresh : freshCounts label = (freshCounts label).mapValues Counts.wrapped := by
      rw [Node.mapValues_eq]
      rfl
    have hchild : ((node.mapValues Counts.wrapped).child? label).getD (freshCounts label) =
        ((node.child? label).getD (freshCounts label)).mapValues Counts.wrapped := by
      rw [Node.child?_mapValues]
      cases node.child? label with
      | none => exact hfresh
      | some c => rfl
    rw [depositWith?, Node.alterChild?, hchild, deposit_cons, Node.alterChild_mapValues hlabel]
    generalize (node.child? label).getD (freshCounts label) = child
    have hvalue : (child.mapValues Counts.wrapped).value = child.value.wrapped := by
      rw [Node.mapValues_eq]
    have hsum : ({ child.mapValues Counts.wrapped with
          value := (child.value ∪ counts).wrapped } : Node Counts) =
        ({ child with value := child.value ∪ counts } : Node Counts).mapValues Counts.wrapped := by
      rw [Node.mapValues_eq, Node.mapValues_eq]
    rw [hvalue, Counts.unionWith?_wrapping, Option.bind_some, hsum, ih, Option.map_some, ← hfresh]

namespace Census

variable {counters : Counters} {census : Census} {deposits : List (List (String × Counts))}

/-- Deposits on a census have room there. -/
def HasRoomFor (census : Census) (deposits : List (List (String × Counts))) : Prop :=
  ∀ labels, labels ≠ [] → HasRoom (census.countsAt? labels) (shares labels deposits)

theorem hasRoomFor_cons {path : List (String × Counts)} :
    census.HasRoomFor (path :: deposits) ↔
      (∀ labels, labels ≠ [] → HasRoom (census.countsAt? labels) (share labels path)) ∧
        (census.put path).HasRoomFor deposits := by
  have hput : ∀ labels, labels ≠ [] → (census.put path).countsAt? labels =
      join? (census.countsAt? labels) (share labels path) :=
    fun labels hne => valueAt?_deposit path census.root hne
  simp only [HasRoomFor, shares_cons, hasRoom_join_iff]
  constructor
  · intro h
    exact ⟨fun labels hne => (h labels hne).1, fun labels hne => hput labels hne ▸ (h labels hne).2⟩
  · rintro ⟨hfirst, hrest⟩ labels hne
    exact ⟨hfirst labels hne, hput labels hne ▸ hrest labels hne⟩

/-- Deposits that have room are made. -/
theorem foldlM_putWith?_of_hasRoomFor (h : census.HasRoomFor deposits) :
    deposits.foldlM (putWith? counters) census = some (deposits.foldl put census) := by
  induction deposits generalizing census with
  | nil => rfl
  | cons path rest ih =>
    obtain ⟨hfirst, hrest⟩ := hasRoomFor_cons.1 h
    have hput : census.putWith? counters path = some (census.put path) := by
      rw [putWith?, depositWith?_of_hasRoom hfirst, Option.map_some]
      rfl
    rw [List.foldlM_cons, hput]
    exact ih hrest

/-- Checked counters take deposits exactly if they have room. -/
theorem isSome_foldlM_putWith?_checked :
    (deposits.foldlM (putWith? .checked) census).isSome ↔ census.HasRoomFor deposits := by
  constructor
  · intro h
    induction deposits generalizing census with
    | nil => exact fun labels _ => hasRoom_none _
    | cons path rest ih =>
      rw [List.foldlM_cons] at h
      cases hput : census.putWith? .checked path with
      | none => simp [hput] at h
      | some after =>
        have hfirst : ∀ labels, labels ≠ [] →
            HasRoom (census.countsAt? labels) (share labels path) := by
          refine hasRoom_of_depositWith?_checked ?_
          rw [← Option.isSome_map (f := fun root => { census with root })]
          exact Option.isSome_of_eq_some hput
        have hafter : after = census.put path := by
          rw [putWith?, depositWith?_of_hasRoom hfirst, Option.map_some] at hput
          exact (Option.some.inj hput).symm
        subst hafter
        rw [hput] at h
        exact hasRoomFor_cons.2 ⟨hfirst, ih h⟩
  · intro h
    rw [foldlM_putWith?_of_hasRoomFor h]
    rfl

/-- The census whose counts are held by wrapping counters. -/
def wrapped (census : Census) : Census :=
  { census with root := census.root.mapValues Counts.wrapped }

theorem countsAt?_wrapped (census : Census) (labels : List String) :
    census.wrapped.countsAt? labels = (census.countsAt? labels).map Counts.wrapped :=
  Node.valueAt?_mapValues census.root labels

/-- Wrapping counters hold the remainders of what deposits make. -/
theorem foldlM_putWith?_wrapping (census : Census) (deposits : List (List (String × Counts))) :
    deposits.foldlM (putWith? .wrapping) census.wrapped =
      some (deposits.foldl put census).wrapped := by
  induction deposits generalizing census with
  | nil => rfl
  | cons path rest ih =>
    have hput : census.wrapped.putWith? .wrapping path = some (census.put path).wrapped := by
      rw [putWith?, wrapped, depositWith?_wrapping, Option.map_some]
      rfl
    rw [List.foldlM_cons, hput]
    exact ih (census.put path)

/-- Wrapping counters hold the remainders of counts. -/
theorem countIn_countsAt?_wrapped (census : Census) (labels : List String) (tree : Nat) :
    countIn (census.wrapped.countsAt? labels) tree =
      countIn (census.countsAt? labels) tree % counterLimit := by
  rw [countsAt?_wrapped]
  cases census.countsAt? labels with
  | none => rfl
  | some counts => exact counts.get_wrapped tree

/-! ## Operations as deposits -/

theorem absorbWith?_eq (counters : Counters) (census : Census)
    (chains : List (List (Node Counts))) :
    census.absorbWith? counters chains =
      (chains.map countsAlong).foldlM (putWith? counters) census := by
  rw [List.foldlM_map]
  rfl

theorem mergeWith?_eq (counters : Counters) (census other : Census) :
    census.mergeWith? counters other =
      ((other.root.chains.map lastOnly).foldlM (putWith? counters) census).map fun sum =>
        { sum with treeCount := max census.treeCount other.treeCount } := by
  rw [List.foldlM_map]
  rfl

theorem restructureWith?_eq (counters : Counters) (census : Census) (label : String) :
    census.restructureWith? counters label =
      ((census.root.topmost label).flatMap fun node => node.leafRoutes.map countsAlong).foldlM
        (putWith? counters) (ofTreeCount census.treeCount) := by
  rw [restructureWith?]
  generalize ofTreeCount census.treeCount = start
  induction census.root.topmost label generalizing start with
  | nil => rfl
  | cons node rest ih =>
    rw [List.foldlM_cons, List.flatMap_cons, List.foldlM_append, absorbWith?_eq,
      Node.completePathsFrom_eq, List.reverse_singleton, List.flatMap_singleton]
    exact congrArg _ (funext ih)

end Census

end PathCensus
