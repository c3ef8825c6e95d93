import Mathlib
import Calculator.Diagram
import Calculator.Proofs.Placement
import Calculator.Proofs.PostorderNumbers

/-!
# Columns of a diagram

In a tree that is built the leaves stand in the order of their numbers, one in each column of the
diagram, and a subtree takes the columns of its leaves (`Layout.getElem_widths`). Its root stands
above the middle of them (`Layout.Fits.exists_above`), on the level of its path, so that the nodes
of a level are apart from each other and all discs are inside the canvas
(`Layout.columns_of_ofPostfix`).
-/

namespace Calculator

/-- The one path parts from the other, to the left where this goes to the right. -/
inductive LeftOf : List Side → List Side → Prop
  | parts (path path' : List Side) : LeftOf (.left :: path) (.right :: path')
  | cons (side : Side) {path path' : List Side} : LeftOf path path' →
      LeftOf (side :: path) (side :: path')

theorem leftOf_cons_iff {side : Side} {path path' : List Side} :
    LeftOf (side :: path) (side :: path') ↔ LeftOf path path' := by
  refine ⟨fun h => ?_, .cons side⟩
  cases h with
  | cons _ h => exact h

/-- Of two paths of one length, one is to the left of the other. -/
theorem leftOf_or_leftOf {path path' : List Side} (hlength : path.length = path'.length)
    (hne : path ≠ path') : LeftOf path path' ∨ LeftOf path' path := by
  induction path generalizing path' with
  | nil => exact absurd (List.length_eq_zero_iff.1 hlength.symm).symm hne
  | cons side path ih =>
    obtain ⟨side', path', rfl⟩ := List.exists_cons_of_length_eq_add_one hlength.symm
    by_cases hside : side = side'
    · subst hside
      rw [leftOf_cons_iff, leftOf_cons_iff]
      exact ih (Nat.succ.inj hlength) fun heq => hne (congrArg _ heq)
    · cases side <;> cases side'
      · exact absurd rfl hside
      · exact .inl (.parts _ _)
      · exact .inr (.parts _ _)
      · exact absurd rfl hside

namespace Arena

variable {a : Arena} {low id : Nat}

/-! ## Leaves -/

/-- There is a literal under this number. -/
def IsLeaf (a : Arena) (id : Nat) : Prop := (a.get? id).any Node.isLeaf = true

instance (a : Arena) : DecidablePred a.IsLeaf := fun _ => inferInstanceAs (Decidable (_ = true))

theorem isLeaf_iff {node : Node} (h : a.get? id = some node) :
    a.IsLeaf id ↔ node.isLeaf = true := by
  rw [IsLeaf, h]
  rfl

theorem isLeaf_literal {text : String} (h : a.get? id = some (.literal text)) : a.IsLeaf id :=
  (isLeaf_iff h).2 rfl

theorem not_isLeaf_binary {op : Operator} {left right : Nat}
    (h : a.get? id = some (.binary op left right)) : ¬ a.IsLeaf id :=
  fun hleaf => Bool.false_ne_true ((isLeaf_iff h).1 hleaf)

/-- The leaves that a node reaches. -/
def leavesOf (a : Arena) (id : Nat) : Set Nat := {leaf | a.IsLeaf leaf ∧ a.Reaches id leaf}

/-- The leaves to which a path leads that is to the left of the given one. -/
def leavesLeftOf (a : Arena) (root : Nat) (path : List Side) : Set Nat :=
  {leaf | a.IsLeaf leaf ∧ ∃ path', LeftOf path' path ∧ a.follow? root path' = some leaf}

/-- How many leaves have numbers below a bound. -/
def leavesBelow (a : Arena) (bound : Nat) : Nat := Nat.count a.IsLeaf bound

theorem leavesBelow_mono : Monotone a.leavesBelow := Nat.count_monotone _

theorem Reaches.leavesBelow_le {other : Nat} (h : a.Reaches id other) :
    a.leavesBelow (other + 1) ≤ a.leavesBelow (id + 1) :=
  a.leavesBelow_mono (Nat.succ_le_succ h.le)

theorem leavesBelow_literal {text : String} (h : a.get? id = some (.literal text)) :
    a.leavesBelow (id + 1) = a.leavesBelow id + 1 := by
  rw [leavesBelow, Nat.count_succ, if_pos (isLeaf_literal h), leavesBelow]

theorem leavesBelow_binary {op : Operator} {left right : Nat}
    (h : a.get? id = some (.binary op left right)) :
    a.leavesBelow (id + 1) = a.leavesBelow id := by
  rw [leavesBelow, Nat.count_succ, if_neg (not_isLeaf_binary h), Nat.add_zero, leavesBelow]

theorem ncard_leaves_lt (a : Arena) (bound : Nat) :
    {leaf | a.IsLeaf leaf ∧ leaf < bound}.ncard = a.leavesBelow bound := by
  have hset : {leaf | a.IsLeaf leaf ∧ leaf < bound} =
      ↑((Finset.range bound).filter a.IsLeaf) := by
    ext leaf
    simp [and_comm]
  rw [hset, Set.ncard_coe_finset, leavesBelow, Nat.count_eq_card_filter_range]

theorem finite_leaves_lt (a : Arena) (bound : Nat) : {leaf | a.IsLeaf leaf ∧ leaf < bound}.Finite :=
  (Set.finite_Iio bound).subset fun _ h => h.2

/-! ## Leaves of subtrees that fill a stretch of numbers -/

/-- A subtree has a leaf. -/
theorem Fills.leavesBelow_lt (h : a.Fills low id) :
    a.leavesBelow low < a.leavesBelow (id + 1) := by
  induction h with
  | literal hget =>
    rw [leavesBelow_literal hget]
    exact Nat.lt_succ_self _
  | binary _ _ hget ihl ihr =>
    rw [leavesBelow_binary hget]
    exact Nat.lt_trans ihl ihr

theorem Fills.ncard_leavesOf (h : a.Fills low id) :
    (a.leavesOf id).ncard = a.leavesBelow (id + 1) - a.leavesBelow low := by
  have hset : a.leavesOf id =
      {leaf | a.IsLeaf leaf ∧ leaf < id + 1} \ {leaf | a.IsLeaf leaf ∧ leaf < low} := by
    ext leaf
    simp only [leavesOf, h.reaches_iff, Set.mem_ofPred_eq, Set.mem_sdiff]
    by_cases hleaf : a.IsLeaf leaf
    · simp only [hleaf, true_and]
      omega
    · simp [hleaf]
  have hsub : {leaf | a.IsLeaf leaf ∧ leaf < low} ⊆ {leaf | a.IsLeaf leaf ∧ leaf < id + 1} :=
    fun leaf hleaf => ⟨hleaf.1, by have := h.le; have := hleaf.2; omega⟩
  rw [hset, Set.ncard_sdiff hsub (a.finite_leaves_lt low), ncard_leaves_lt, ncard_leaves_lt]

/-- To the left of a node's path are the paths to the numbers before those of its subtree. -/
theorem Fills.leftOf_iff (h : a.Fills low id) {path path' : List Side} {first other other' : Nat}
    (hfirst : a.Fills first other) (hpath : a.follow? id path = some other)
    (hpath' : a.follow? id path' = some other') : LeftOf path' path ↔ other' < first := by
  have hle := hfirst.le
  induction h generalizing path path' with
  | literal hget =>
    obtain ⟨rfl, rfl⟩ := (follow?_literal_iff hget).1 hpath
    obtain ⟨rfl, rfl⟩ := (follow?_literal_iff hget).1 hpath'
    exact iff_of_false (fun h => nomatch h) (by omega)
  | @binary low left right op hl hr hget ihl ihr =>
    have hright {rest : List Side} {other : Nat} (hrest : a.follow? right rest = some other) :
        left < other :=
      (hr.reaches_iff.1 ⟨rest, hrest⟩).1
    have hleft {rest : List Side} {other : Nat} (hrest : a.follow? left rest = some other) :
        other ≤ left :=
      (hl.reaches_iff.1 ⟨rest, hrest⟩).2
    rcases (follow?_binary_iff hget).1 hpath with
      ⟨rfl, rfl⟩ | ⟨rest, rfl, hrest⟩ | ⟨rest, rfl, hrest⟩
    · -- The subtree is the whole tree, which no path leaves.
      have := (hfirst.reaches_iff.1 ⟨path', hpath'⟩).1
      exact iff_of_false (fun h => nomatch h) (by omega)
    · rcases (follow?_binary_iff hget).1 hpath' with
        ⟨rfl, rfl⟩ | ⟨rest', rfl, hrest'⟩ | ⟨rest', rfl, hrest'⟩
      · have := hr.le
        have := hleft hrest
        exact iff_of_false (fun h => nomatch h) (by omega)
      · exact leftOf_cons_iff.trans (ihl hrest hrest')
      · have := hleft hrest
        have := hright hrest'
        exact iff_of_false (fun h => nomatch h) (by omega)
    · rcases (follow?_binary_iff hget).1 hpath' with
        ⟨rfl, rfl⟩ | ⟨rest', rfl, hrest'⟩ | ⟨rest', rfl, hrest'⟩
      · have := (Reaches.le ⟨rest, hrest⟩ : other ≤ right)
        exact iff_of_false (fun h => nomatch h) (by omega)
      · -- The subtree is part of the right operand's.
        have hstart : a.Reaches right first := by
          obtain ⟨more, hmore⟩ := hfirst.reaches_iff.2 ⟨Nat.le_refl first, hle⟩
          exact ⟨rest ++ more, by rw [follow?_append, hrest]; exact hmore⟩
        have := (hr.reaches_iff.1 hstart).1
        have := hleft hrest'
        exact ⟨fun _ => by omega, fun _ => .parts _ _⟩
      · exact leftOf_cons_iff.trans (ihr hrest hrest')

theorem Fills.ncard_leavesLeftOf (h : a.Fills 0 id) {path : List Side} {first other : Nat}
    (hfirst : a.Fills first other) (hpath : a.follow? id path = some other) :
    (a.leavesLeftOf id path).ncard = a.leavesBelow first := by
  have hset : a.leavesLeftOf id path = {leaf | a.IsLeaf leaf ∧ leaf < first} := by
    ext leaf
    refine and_congr_right fun _ => ⟨?_, fun hlt => ?_⟩
    · rintro ⟨path', hleft, hpath'⟩
      exact (h.leftOf_iff hfirst hpath hpath').1 hleft
    · have hother := (Reaches.le ⟨path, hpath⟩ : other ≤ id)
      have hle := hfirst.le
      obtain ⟨path', hpath'⟩ : a.Reaches id leaf := h.reaches_iff.2 ⟨Nat.zero_le _, by omega⟩
      exact ⟨path', (h.leftOf_iff hfirst hpath hpath').2 hlt, hpath'⟩
  rw [hset, ncard_leaves_lt]

end Arena

namespace Layout

/-! ## Widths -/

section

variable {a : Arena} {id : Nat}

theorem getElem_widths_literal {text : String} (hget : a.get? id = some (.literal text))
    (h : id < a.size) : (widths a)[id] = nodeWidth := by
  obtain ⟨_, hnode⟩ := Arena.get?_eq_some_iff.1 hget
  exact (a.valueAt_eq _ _ id h).trans (Node.combine_literal hnode _)

theorem getElem_widths_binary {op : Operator} {left right : Nat}
    (hget : a.get? id = some (.binary op left right)) (h : id < a.size) (hl : left < a.size)
    (hr : right < a.size) :
    (widths a)[id] = binaryWidth (widths a)[left] (widths a)[right] := by
  obtain ⟨_, hnode⟩ := Arena.get?_eq_some_iff.1 hget
  obtain ⟨hleft, hright⟩ := Arena.children_lt hget
  exact (a.valueAt_eq _ _ id h).trans (Node.combine_binary hnode _ hleft hright)

end

/-- The width of a number of columns side by side: a node's width each and a gap between two. -/
def columns (leaves : Nat) : Binary64 := .ofNat (64 * leaves - 16)

section

variable {l r : Nat} (hl : 0 < l) (hr : 0 < r)
include hl hr

theorem pairWidth_columns (h : 64 * (l + r) ≤ 2 ^ 53) :
    pairWidth (columns l) (columns r) = columns (l + r) := by
  have hsum : columns l + columns r = .ofNat (64 * l - 16 + (64 * r - 16)) :=
    Binary64.add_ofNat (by omega) (by omega)
  have hgap : Binary64.ofNat (64 * l - 16 + (64 * r - 16)) + siblingGap =
      .ofNat (64 * l - 16 + (64 * r - 16) + 16) :=
    Binary64.add_ofNat (by omega) (by decide)
  rw [pairWidth, hsum, hgap]
  exact congrArg Binary64.ofNat (by omega)

theorem binaryWidth_columns (h : 64 * (l + r) ≤ 2 ^ 53) :
    binaryWidth (columns l) (columns r) = columns (l + r) := by
  have hmax : Binary64.max nodeWidth (columns (l + r)) = .ofNat (max 48 (64 * (l + r) - 16)) :=
    Binary64.max_ofNat (by decide) (by omega)
  rw [binaryWidth, pairWidth_columns hl hr h, hmax]
  exact congrArg Binary64.ofNat (by omega)

end

theorem columns_half {leaves : Nat} (hpos : 0 < leaves) (h : 64 * leaves ≤ 2 ^ 53) :
    columns leaves / 2 = .ofNat (32 * leaves - 8) := by
  have hdouble : columns leaves = .ofNat ((32 * leaves - 8) * 2) :=
    congrArg Binary64.ofNat (by omega)
  rw [hdouble]
  exact Binary64.div_ofNat (by omega) (by omega) (by decide)

/-- A subtree that fills a stretch of numbers takes a column for each of its leaves. -/
theorem getElem_widths {a : Arena} {low id : Nat} (h : a.Fills low id) (hid : id < a.size)
    (hbound : 64 * a.leavesBelow (id + 1) ≤ 2 ^ 53) :
    (widths a)[id] = columns (a.leavesBelow (id + 1) - a.leavesBelow low) := by
  induction h with
  | literal hget =>
    rw [getElem_widths_literal hget hid, Arena.leavesBelow_literal hget, Nat.add_sub_cancel_left]
    rfl
  | @binary low left right op hl hr hget ihl ihr =>
    obtain ⟨hleft, hright⟩ := Arena.children_lt hget
    have hlsize := Nat.lt_trans hleft hid
    have hrsize := Nat.lt_trans hright hid
    have hlpos := hl.leavesBelow_lt
    have hrpos := hr.leavesBelow_lt
    rw [Arena.leavesBelow_binary hget] at hbound ⊢
    rw [getElem_widths_binary hget hid hlsize hrsize, ihl hlsize (by omega), ihr hrsize hbound,
      binaryWidth_columns (by omega) (by omega) (by omega)]
    exact congrArg columns (by omega)

/-! ## Places -/

/-- The place above the middle of the columns of some leaves, with others to the left of them. -/
def above (before leaves : Nat) (y : Binary64) : Point :=
  ⟨.ofNat (12 + 64 * before + 32 * leaves), y⟩

theorem operandPlaces_columns {before l r : Nat} {y : Binary64} (hl : 0 < l) (hr : 0 < r)
    (h : 64 * (before + l + r) + 24 ≤ 2 ^ 53) :
    operandPlaces (above before (l + r) y) (columns l) (columns r) =
      (above before l (y + levelHeight), above (before + l) r (y + levelHeight)) := by
  have hstart : Binary64.ofNat (12 + 64 * before + 32 * (l + r)) - .ofNat (32 * (l + r) - 8) =
      .ofNat (12 + 64 * before + 32 * (l + r) - (32 * (l + r) - 8)) :=
    Binary64.sub_ofNat (by omega) (by omega) (by omega)
  have heq : 12 + 64 * before + 32 * (l + r) - (32 * (l + r) - 8) = 20 + 64 * before := by omega
  have hleft : Binary64.ofNat (20 + 64 * before) + .ofNat (32 * l - 8) =
      .ofNat (20 + 64 * before + (32 * l - 8)) :=
    Binary64.add_ofNat (by omega) (by omega)
  have hcolumns : Binary64.ofNat (20 + 64 * before) + columns l =
      .ofNat (20 + 64 * before + (64 * l - 16)) :=
    Binary64.add_ofNat (by omega) (by omega)
  have hgap : Binary64.ofNat (20 + 64 * before + (64 * l - 16)) + siblingGap =
      .ofNat (20 + 64 * before + (64 * l - 16) + 16) :=
    Binary64.add_ofNat (by omega) (by decide)
  have hright : Binary64.ofNat (20 + 64 * before + (64 * l - 16) + 16) + .ofNat (32 * r - 8) =
      .ofNat (20 + 64 * before + (64 * l - 16) + 16 + (32 * r - 8)) :=
    Binary64.add_ofNat (by omega) (by omega)
  have hleftmost : 20 + 64 * before + (32 * l - 8) = 12 + 64 * before + 32 * l := by omega
  have hrightmost : 20 + 64 * before + (64 * l - 16) + 16 + (32 * r - 8) =
      12 + 64 * (before + l) + 32 * r := by
    omega
  simp only [operandPlaces, above, pairWidth_columns hl hr (by omega), columns_half hl (by omega),
    columns_half hr (by omega), columns_half (Nat.add_pos_left hl r) (by omega), hstart, heq, hleft,
    hcolumns, hgap, hright, hleftmost, hrightmost]

/-- The tree fills its arena, and all coordinates are whole numbers of 53 bits. -/
structure Fits (t : Tree) : Prop where
  fills : t.arena.Fills 0 t.root
  width : 64 * t.arena.leavesBelow (t.root + 1) + 24 ≤ 2 ^ 53
  height : 64 + 90 * t.depth ≤ 2 ^ 53

/-- The node's place, in whole numbers. -/
def StandsAt (t : Tree) (id x y : Nat) : Prop :=
  ∃ place : Point, (positions t)[id]? = some (some place) ∧ place.x.toRat? = some (x : ℚ) ∧
    place.y.toRat? = some (y : ℚ)

theorem StandsAt.reaches {t : Tree} {id x y : Nat} (h : StandsAt t id x y) :
    t.arena.Reaches t.root id := by
  obtain ⟨place, hplace, -⟩ := h
  exact hasPlace_positions_iff.1 ⟨place, hplace⟩

namespace Fits

variable {t : Tree} (h : Fits t)
include h

theorem rootWidth_eq : rootWidth t = columns (t.arena.leavesBelow (t.root + 1)) := by
  have hwidth := h.width
  exact getElem_widths h.fills t.root_lt (by omega)

theorem rootPlace_eq : rootPlace t = above 0 (t.arena.leavesBelow (t.root + 1)) topMargin := by
  have hwidth := h.width
  have hpos := h.fills.leavesBelow_lt
  have hmiddle : Binary64.ofNat (32 * t.arena.leavesBelow (t.root + 1) - 8) + sideMargin =
      .ofNat (32 * t.arena.leavesBelow (t.root + 1) - 8 + 20) :=
    Binary64.add_ofNat (by omega) (by decide)
  have heq : 32 * t.arena.leavesBelow (t.root + 1) - 8 + 20 =
      12 + 64 * 0 + 32 * t.arena.leavesBelow (t.root + 1) := by
    omega
  rw [rootPlace, h.rootWidth_eq, columns_half (by omega) (by omega), hmiddle, heq, above]

theorem canvasWidth_eq :
    canvasWidth t = .ofNat (max 480 (64 * t.arena.leavesBelow (t.root + 1) + 24)) := by
  have hwidth := h.width
  have hpos := h.fills.leavesBelow_lt
  have hmargins : (2 : Binary64) * sideMargin = .ofNat (2 * 20) :=
    Binary64.mul_ofNat (by decide) (by decide)
  have hsum : columns (t.arena.leavesBelow (t.root + 1)) + .ofNat (2 * 20) =
      .ofNat (64 * t.arena.leavesBelow (t.root + 1) - 16 + 2 * 20) :=
    Binary64.add_ofNat (by omega) (by decide)
  have hmax : minCanvasWidth.max (.ofNat (64 * t.arena.leavesBelow (t.root + 1) - 16 + 2 * 20)) =
      .ofNat (max 480 (64 * t.arena.leavesBelow (t.root + 1) - 16 + 2 * 20)) :=
    Binary64.max_ofNat (by decide) (by omega)
  rw [canvasWidth, h.rootWidth_eq, hmargins, hsum, hmax]
  exact congrArg Binary64.ofNat (by omega)

/-- A node that a path leads to stands above the middle of the columns of its leaves, which come
after those of the leaves with lower numbers. -/
theorem exists_above {path : List Side} {id : Nat} (hpath : t.arena.follow? t.root path = some id) :
    ∃ first y, t.arena.Fills first id ∧ (positions t)[id]? = some (some (above
      (t.arena.leavesBelow first)
      (t.arena.leavesBelow (id + 1) - t.arena.leavesBelow first) y)) := by
  induction path using List.reverseRecOn generalizing id with
  | nil =>
    obtain rfl := Option.some.inj hpath
    refine ⟨0, topMargin, h.fills, ?_⟩
    rw [(pass_positions t).placed.root, h.rootPlace_eq]
    rfl
  | append_singleton rest side ih =>
    obtain ⟨parent, hrest, hside⟩ := Arena.follow?_concat_iff.1 hpath
    obtain ⟨first, y, hparent, hplace⟩ := ih hrest
    have hlt := Arena.lt_of_child? hside
    have hle := (Arena.Reaches.le ⟨rest, hrest⟩ : parent ≤ t.root)
    obtain ⟨parent', ⟨⟨⟨rest', hrest'⟩, side', hside'⟩, -⟩, hby⟩ :=
      exists_placedBy ⟨_, hpath⟩ (by omega)
    -- Only one path leads to the node, so that it has no other parent.
    have heq := h.fills.path_eq hpath (Arena.follow?_concat_iff.2 ⟨parent', hrest', hside'⟩)
    obtain rfl := (List.append_inj' heq rfl).1
    obtain rfl := Option.some.inj (hrest.symm.trans hrest')
    obtain ⟨op, left, right, hl, hr, place, hget, hor, hplace', hvalue⟩ := hby
    obtain ⟨hleft, hright, rfl⟩ := hparent.of_binary hget
    rw [hplace, Option.some.injEq, Option.some.injEq] at hplace'
    obtain rfl := hplace'
    have hwidth := h.width
    have hlpos := hleft.leavesBelow_lt
    have hrpos := hright.leavesBelow_lt
    have hall := Arena.Reaches.leavesBelow_le ⟨rest, hrest⟩
    rw [Arena.leavesBelow_binary hget] at hall
    have hsum : t.arena.leavesBelow (right + 1 + 1) - t.arena.leavesBelow first =
        t.arena.leavesBelow (left + 1) - t.arena.leavesBelow first +
          (t.arena.leavesBelow (right + 1) - t.arena.leavesBelow (left + 1)) := by
      rw [Arena.leavesBelow_binary hget]
      omega
    rw [getElem_widths hleft hl (by omega), getElem_widths hright hr (by omega), hsum,
      operandPlaces_columns (by omega) (by omega) (by omega)] at hvalue
    have hrle := hright.le
    rcases hor with rfl | rfl
    · rw [if_neg (by omega)] at hvalue
      exact ⟨first, _, hleft, hvalue⟩
    · rw [if_pos rfl, Nat.add_sub_cancel' (Nat.le_of_lt hlpos)] at hvalue
      exact ⟨left + 1, _, hright, hvalue⟩

/-! ## Coordinates -/

section

variable {path path' : List Side} {id id' x y x' y' : Nat}
  (hpath : t.arena.follow? t.root path = some id) (hpath' : t.arena.follow? t.root path' = some id')
include hpath

/-- A node stands as far to the right as there are leaves before its subtree, and as far down as its
path is long. -/
theorem standsAt_iff {first : Nat} (hfirst : t.arena.Fills first id) :
    StandsAt t id x y ↔ x = 12 + 64 * t.arena.leavesBelow first +
        32 * (t.arena.leavesBelow (id + 1) - t.arena.leavesBelow first) ∧
      y = 24 + 90 * path.length := by
  obtain ⟨first', level, hfirst', hplace⟩ := h.exists_above hpath
  obtain rfl := hfirst.first_eq hfirst'
  obtain ⟨path', hpath', hlength, hlevel⟩ := exists_level h.height hplace
  obtain rfl := h.fills.path_eq hpath hpath'
  have hwidth := h.width
  have hheight := h.height
  have hle := Arena.Reaches.leavesBelow_le ⟨path, hpath⟩
  have hpos := hfirst.leavesBelow_lt
  have hx := Binary64.toRat?_ofNat (a := 12 + 64 * t.arena.leavesBelow first +
    32 * (t.arena.leavesBelow (id + 1) - t.arena.leavesBelow first)) (by omega)
  have hy := Binary64.toRat?_ofNat (a := 24 + 90 * path.length) (by omega)
  simp only [above] at hlevel
  simp only [StandsAt, hplace, Option.some.injEq, above, hlevel, exists_eq_left', hx, hy,
    Nat.cast_inj]
  rw [eq_comm (b := x), eq_comm (b := y)]

theorem coordinates (hstands : StandsAt t id x y) : ∃ first, t.arena.Fills first id ∧
    x = 12 + 64 * t.arena.leavesBelow first +
      32 * (t.arena.leavesBelow (id + 1) - t.arena.leavesBelow first) ∧
    y = 24 + 90 * path.length := by
  obtain ⟨first, hfirst⟩ := h.fills.exists_first hpath
  exact ⟨first, hfirst, (h.standsAt_iff hpath hfirst).1 hstands⟩

/-- All of a node's disc is inside the canvas. -/
theorem inside_canvas (hstands : StandsAt t id x y) :
    18 ≤ x ∧ x + 18 ≤ max 480 (64 * t.arena.leavesBelow (t.root + 1) + 24) ∧ 18 ≤ y ∧
      y + 18 ≤ 64 + 90 * t.depth := by
  obtain ⟨first, hfirst, hx, hy⟩ := h.coordinates hpath hstands
  have hlength : path.length < t.depth := by
    rw [Tree.depth_eq]
    exact Arena.length_lt_depth t.root_lt hpath
  have hle := Arena.Reaches.leavesBelow_le ⟨path, hpath⟩
  have hpos := hfirst.leavesBelow_lt
  omega

/-- A binary node stands between its operands. -/
theorem between_operands {op : Operator} {left right xl yl xr yr : Nat}
    (hget : t.arena.get? id = some (.binary op left right)) (hstands : StandsAt t id x y)
    (hl : StandsAt t left xl yl) (hr : StandsAt t right xr yr) : xl < x ∧ x < xr := by
  obtain ⟨first, hfirst, hx, -⟩ := h.coordinates hpath hstands
  obtain ⟨hleft, hright, rfl⟩ := hfirst.of_binary hget
  obtain ⟨hcl, hcr⟩ := Arena.child?_of_binary hget
  have hpathl := Arena.follow?_concat_iff.2 ⟨_, hpath, hcl⟩
  have hpathr := Arena.follow?_concat_iff.2 ⟨_, hpath, hcr⟩
  have hxl := ((h.standsAt_iff hpathl hleft).1 hl).1
  have hxr := ((h.standsAt_iff hpathr hright).1 hr).1
  have hposl := hleft.leavesBelow_lt
  have hposr := hright.leavesBelow_lt
  rw [Arena.leavesBelow_binary hget] at hx
  omega

include hpath'

/-- A node whose path is to the left of another's stands at least a column to the left of it. -/
theorem add_column_le (hstands : StandsAt t id x y) (hstands' : StandsAt t id' x' y')
    (hleft : LeftOf path path') : x + 64 ≤ x' := by
  obtain ⟨first, hfirst, hx, -⟩ := h.coordinates hpath hstands
  obtain ⟨first', hfirst', hx', -⟩ := h.coordinates hpath' hstands'
  have hlt : id < first' := (h.fills.leftOf_iff hfirst' hpath' hpath).1 hleft
  have hmono : t.arena.leavesBelow (id + 1) ≤ t.arena.leavesBelow first' :=
    t.arena.leavesBelow_mono hlt
  have hpos := hfirst.leavesBelow_lt
  have hpos' := hfirst'.leavesBelow_lt
  omega

/-- Different nodes of one level have paths of which one is to the left of the other. -/
theorem apart_of_level (hstands : StandsAt t id x y) (hstands' : StandsAt t id' x' y')
    (hlength : path.length = path'.length) (hne : id ≠ id') :
    LeftOf path path' ∧ x + 64 ≤ x' ∨ LeftOf path' path ∧ x' + 64 ≤ x := by
  have hpaths : path ≠ path' := by
    rintro rfl
    exact hne (Option.some.inj (hpath.symm.trans hpath'))
  rcases leftOf_or_leftOf hlength hpaths with hleft | hleft
  · exact .inl ⟨hleft, h.add_column_le hpath hpath' hstands hstands' hleft⟩
  · exact .inr ⟨hleft, h.add_column_le hpath' hpath hstands' hstands hleft⟩

/-- Different nodes are farther apart than two discs reach. -/
theorem diameter_lt (hstands : StandsAt t id x y) (hstands' : StandsAt t id' x' y')
    (hne : id ≠ id') : (18 + 18) ^ 2 < ((x : ℤ) - x') ^ 2 + ((y : ℤ) - y') ^ 2 := by
  by_cases hlength : path.length = path'.length
  · have hapart := h.apart_of_level hpath hpath' hstands hstands' hlength hne
    have hfar : 64 ≤ |(x : ℤ) - x'| := by
      rw [le_abs]
      omega
    nlinarith [sq_abs ((x : ℤ) - x'), sq_nonneg ((y : ℤ) - y')]
  · obtain ⟨-, -, -, hy⟩ := h.coordinates hpath hstands
    obtain ⟨-, -, -, hy'⟩ := h.coordinates hpath' hstands'
    have hfar : 90 ≤ |(y : ℤ) - y'| := by
      rw [le_abs]
      omega
    nlinarith [sq_abs ((y : ℤ) - y'), sq_nonneg ((x : ℤ) - x')]

end

end Fits

/-- In a tree that is built, of few enough leaves and levels for all coordinates to be whole numbers
of 53 bits, a node on the level `l` with `L` leaves below it and `k` leaves to the left of it stands
at `12 + 64 * k + 32 * L` and `24 + 90 * l`, on a canvas as wide as all leaves and as high as all
levels need. So the nodes of a level stand in their order and a column's width apart, a binary node
stands between its operands, no two discs meet, and all are inside the canvas. -/
theorem columns_of_ofPostfix {tokens : List Token} {t : Tree} (h : Tree.ofPostfix tokens = .ok t)
    (hwidth : 64 * (t.arena.leavesOf t.root).ncard + 24 ≤ 2 ^ 53)
    (hheight : 64 + 90 * t.depth ≤ 2 ^ 53) :
    let width := max 480 (64 * (t.arena.leavesOf t.root).ncard + 24)
    let height := 64 + 90 * t.depth
    (canvasWidth t).toRat? = some (width : ℚ) ∧ (canvasHeight t).toRat? = some (height : ℚ) ∧
    (∀ id < t.nodeCount, ∃! path, t.arena.follow? t.root path = some id) ∧
    (∀ path id, t.arena.follow? t.root path = some id →
      StandsAt t id
        (12 + 64 * (t.arena.leavesLeftOf t.root path).ncard + 32 * (t.arena.leavesOf id).ncard)
        (24 + 90 * path.length)) ∧
    (∀ path path' id id' x y x' y', t.arena.follow? t.root path = some id →
      t.arena.follow? t.root path' = some id' → path.length = path'.length → id ≠ id' →
      StandsAt t id x y → StandsAt t id' x' y' →
        LeftOf path path' ∧ x + 64 ≤ x' ∨ LeftOf path' path ∧ x' + 64 ≤ x) ∧
    (∀ id op left right x y xl yl xr yr, t.arena.get? id = some (.binary op left right) →
      StandsAt t id x y → StandsAt t left xl yl → StandsAt t right xr yr → xl < x ∧ x < xr) ∧
    Diagram.radius.toRat? = some 18 ∧
    (∀ id id' x y x' y', id ≠ id' → StandsAt t id x y → StandsAt t id' x' y' →
      (18 + 18) ^ 2 < ((x : ℤ) - x') ^ 2 + ((y : ℤ) - y') ^ 2) ∧
    ∀ id x y, StandsAt t id x y → 18 ≤ x ∧ x + 18 ≤ width ∧ 18 ≤ y ∧ y + 18 ≤ height := by
  obtain ⟨-, hfills, hroot⟩ := Tree.fills_of_ofPostfix h
  have hleaves : (t.arena.leavesOf t.root).ncard = t.arena.leavesBelow (t.root + 1) :=
    hfills.ncard_leavesOf
  rw [hleaves] at hwidth ⊢
  have hfits : Fits t := ⟨hfills, hwidth, hheight⟩
  refine ⟨?_, ?_, fun id hid => hfills.existsUnique_path (Nat.zero_le id) (by omega),
    fun path id hpath => ?_, fun path path' id id' x y x' y' hpath hpath' hlength hne hs hs' =>
      hfits.apart_of_level hpath hpath' hs hs' hlength hne,
    fun id op left right x y xl yl xr yr hget hs hl hr => ?_, ?_,
    fun id id' x y x' y' hne hs hs' => ?_, fun id x y hs => ?_⟩
  · rw [hfits.canvasWidth_eq, Binary64.toRat?_ofNat (by omega)]
  · rw [canvasHeight_eq hheight, Binary64.toRat?_ofNat hheight]
  · obtain ⟨first, hfirst⟩ := hfills.exists_first hpath
    rw [hfills.ncard_leavesLeftOf hfirst hpath, hfirst.ncard_leavesOf]
    exact (hfits.standsAt_iff hpath hfirst).2 ⟨rfl, rfl⟩
  · obtain ⟨path, hpath⟩ := hs.reaches
    exact hfits.between_operands hpath hget hs hl hr
  · exact Binary64.toRat?_ofNat (a := 18) (by decide)
  · obtain ⟨path, hpath⟩ := hs.reaches
    obtain ⟨path', hpath'⟩ := hs'.reaches
    exact hfits.diameter_lt hpath hpath' hs hs' hne
  · obtain ⟨path, hpath⟩ := hs.reaches
    exact hfits.inside_canvas hpath hs

/-- Two leaves of one level with different parents. -/
theorem columns_of_ofPostfix_cousins :
    let tokens := [.number "1", .number "2", .operator .add, .number "3", .number "4",
      .operator .mul, .operator .sub]
    ∃ t, Tree.ofPostfix tokens = .ok t ∧ 64 * (t.arena.leavesOf t.root).ncard + 24 ≤ 2 ^ 53 ∧
      64 + 90 * t.depth ≤ 2 ^ 53 ∧ (canvasWidth t).toRat? = some 480 ∧
      ∃ x y x' y', StandsAt t 1 x y ∧ StandsAt t 3 x' y' ∧ 1 ≠ 3 ∧ x + 64 ≤ x' ∧
        (18 + 18) ^ 2 < ((x : ℤ) - x') ^ 2 + ((y : ℤ) - y') ^ 2 ∧ 18 ≤ x := by
  intro tokens
  obtain ⟨t, h, hroot, hdepth, hleaves, hpath, hpath'⟩ : ∃ t, Tree.ofPostfix tokens = .ok t ∧
      t.root = 6 ∧ t.depth = 3 ∧ t.arena.leavesBelow 7 = 4 ∧
      t.arena.follow? t.root [.left, .right] = some 1 ∧
      t.arena.follow? t.root [.right, .left] = some 3 :=
    ⟨_, rfl, rfl, by decide, by decide, by decide, by decide⟩
  have hcount : (t.arena.leavesOf t.root).ncard = 4 := by
    rw [(Tree.fills_of_ofPostfix h).2.1.ncard_leavesOf, hroot, hleaves]
    rfl
  have hwidth : 64 * (t.arena.leavesOf t.root).ncard + 24 ≤ 2 ^ 53 := by omega
  have hheight : 64 + 90 * t.depth ≤ 2 ^ 53 := by omega
  obtain ⟨hcanvas, -, -, hplace, hlevel, -, -, hdiscs, hinside⟩ :=
    columns_of_ofPostfix h hwidth hheight
  have hs := hplace _ _ hpath
  have hs' := hplace _ _ hpath'
  have hne : 1 ≠ 3 := by decide
  refine ⟨t, h, hwidth, hheight, ?_, _, _, _, _, hs, hs', hne, ?_, hdiscs _ _ _ _ _ _ hne hs hs',
    (hinside _ _ _ hs).1⟩
  · rw [hcanvas, hcount]
    norm_num
  · rcases hlevel _ _ _ _ _ _ _ _ hpath hpath' rfl hne hs hs' with ⟨-, hle⟩ | ⟨hleft, -⟩
    · exact hle
    · cases hleft

end Layout

end Calculator
