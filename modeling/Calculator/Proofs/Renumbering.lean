import Mathlib
import Calculator.Diagram
import Calculator.Drawing
import Calculator.Evaluation

/-!
# Renumbered nodes

An arena embeds into another if its nodes stand there in the same order, each under a new number and
with the new numbers of its children (`Arena.Embeds`); the other arena may have more nodes before,
between and after them. Nodes that correspond stand for the same expression and are given the same
place, and the others are given none (`Arena.Embeds.agree_positions`). Trees whose roots correspond
are therefore alike in all that is shown of them (`Tree.alike_of_embeds`).
-/

namespace Calculator

/-- The node with other numbers for its children. -/
def Node.renumber (f : Nat → Nat) : Node → Node
  | .literal text => .literal text
  | .binary op left right => .binary op (f left) (f right)

theorem Node.label_renumber (f : Nat → Nat) (node : Node) :
    (node.renumber f).label = node.label := by
  cases node <;> rfl

namespace Arena

/-- The nodes of `b` are in `a` in the same order, the one with number `i` under the number `f i`,
and their children's numbers change alike. -/
structure Embeds (f : Nat → Nat) (b a : Arena) : Prop where
  lt_of_lt : ∀ i j, i < j → j < b.size → f i < f j
  get? : ∀ i node, b.get? i = some node → a.get? (f i) = some (node.renumber f)

namespace Embeds

variable {f : Nat → Nat} {a b : Arena} (h : Embeds f b a)
include h

theorem lt_size {i : Nat} (hi : i < b.size) : f i < a.size :=
  lt_size_of_get? (h.get? i _ (b.get?_eq_node hi))

theorem lt_iff {i j : Nat} (hi : i < b.size) (hj : j < b.size) : f i < f j ↔ i < j := by
  refine ⟨fun hf => ?_, fun hij => h.lt_of_lt i j hij hj⟩
  by_contra hij
  rcases Nat.lt_or_eq_of_le (Nat.le_of_not_lt hij) with hji | rfl
  · exact Nat.lt_asymm hf (h.lt_of_lt j i hji hi)
  · exact Nat.lt_irrefl _ hf

theorem inj {i j : Nat} (hi : i < b.size) (hj : j < b.size) : f i = f j ↔ i = j := by
  have hij := h.lt_iff hi hj
  have hji := h.lt_iff hj hi
  omega

/-- What holds of no nodes at all, and holds with one more node of `a`, which is or is not one of
`b` also, holds of all nodes of both. -/
theorem count_induction {motive : (count kept : Nat) → Prop} (zero : motive 0 0)
    (kept : ∀ i, i < b.size → motive (f i) i → motive (f i + 1) (i + 1))
    (other : ∀ id i, id < a.size → (∀ j < b.size, f j ≠ id) → motive id i → motive (id + 1) i) :
    motive a.size b.size := by
  suffices hall : ∀ count ≤ a.size, ∀ m ≤ b.size, (∀ i < b.size, f i < count ↔ i < m) →
      motive count m from
    hall a.size (Nat.le_refl _) b.size (Nat.le_refl _) fun i hi => iff_of_true (h.lt_size hi) hi
  intro count
  induction count with
  | zero =>
    intro _ m hm hcut
    obtain rfl : m = 0 := by
      by_contra hne
      exact absurd ((hcut 0 (by omega)).2 (by omega)) (Nat.not_lt_zero _)
    exact zero
  | succ id ih =>
    intro hid m hm hcut
    by_cases hkept : ∃ i < b.size, f i = id
    · obtain ⟨i, hi, rfl⟩ := hkept
      -- The nodes of `b` below the cut are those up to `i`.
      have him : i < m := (hcut i hi).1 (Nat.lt_succ_self _)
      obtain rfl : m = i + 1 := by
        by_contra hne
        have hlt := h.lt_of_lt i (i + 1) (Nat.lt_succ_self i) (by omega)
        have := (hcut (i + 1) (by omega)).2 (by omega)
        omega
      exact kept i hi (ih (Nat.le_of_succ_le hid) i (Nat.le_of_lt hi) fun j hj => h.lt_iff hj hi)
    · push Not at hkept
      refine other id m hid hkept (ih (Nat.le_of_succ_le hid) m hm fun i hi => ?_)
      have := hkept i hi
      rw [← hcut i hi]
      omega

/-! ## Expressions -/

theorem exprAt_eq {i : Nat} (hi : i < b.size) (hi' : f i < a.size) :
    a.exprAt (f i) hi' = b.exprAt i hi := by
  induction i, hi using unfold_induction with
  | literal i hi text hget => rw [exprAt_literal (h.get? i _ hget)]
  | binary i hi op left right hl hr hget ihl ihr =>
    rw [exprAt_binary (h.get? i _ hget) hi' (h.lt_size hl) (h.lt_size hr), ihl, ihr]

theorem widths_eq {i : Nat} (hi : i < b.size) (hi' : f i < a.size) :
    (Layout.widths a)[f i] = (Layout.widths b)[i] := by
  show a.valueAt _ _ (f i) hi' = b.valueAt _ _ i hi
  rw [valueAt_eq_fold, valueAt_eq_fold, h.exprAt_eq hi]

end Embeds

/-! ## Places -/

/-- Nodes that correspond have the same place, and the others have none. -/
structure Agree (f : Nat → Nat) (b a : Arena) (places' : Vector (Option Point) b.size)
    (places : Vector (Option Point) a.size) : Prop where
  kept : ∀ i (hi : i < b.size) (hi' : f i < a.size), places[f i] = places'[i]
  other : ∀ id (hid : id < a.size), (∀ i < b.size, f i ≠ id) → places[id] = none

namespace Embeds

variable {f : Nat → Nat} {a b : Arena} (h : Embeds f b a) {places' : Vector (Option Point) b.size}
  {places : Vector (Option Point) a.size}
include h

theorem agree_set (hagree : Agree f b a places' places) {i : Nat} (hi : i < b.size)
    (hi' : f i < a.size) (place : Option Point) :
    Agree f b a (places'.set i place) (places.set (f i) place) where
  kept j hj hj' := by
    rw [Vector.getElem_set, Vector.getElem_set, hagree.kept j hj hj']
    by_cases hij : i = j
    · rw [if_pos hij, if_pos (congrArg f hij)]
    · rw [if_neg hij, if_neg fun hf => hij ((h.inj hi hj).1 hf)]
  other id hid hnone := by
    rw [Vector.getElem_set_ne _ _ (hnone i hi)]
    exact hagree.other id hid hnone

theorem agree_placeOperands (hagree : Agree f b a places' places) {i : Nat} (hi : i < b.size)
    (hi' : f i < a.size) :
    Agree f b a (Layout.placeOperands b (Layout.widths b) i hi places')
      (Layout.placeOperands a (Layout.widths a) (f i) hi' places) := by
  have hplace := hagree.kept i hi hi'
  have hget := b.get?_eq_node hi
  generalize b.node i hi = node at hget
  have hget' := h.get? i node hget
  cases hparent : places'[i] with
  | none =>
    rw [Layout.placeOperands_none hparent, Layout.placeOperands_none (hplace.trans hparent)]
    exact hagree
  | some parent =>
    cases node with
    | literal text =>
      rw [Layout.placeOperands_literal hget, Layout.placeOperands_literal hget']
      exact hagree
    | binary op left right =>
      obtain ⟨hl, hr⟩ := children_lt hget
      have hlsize := Nat.lt_trans hl hi
      have hrsize := Nat.lt_trans hr hi
      rw [Layout.placeOperands_binary hparent hget hlsize hrsize,
        Layout.placeOperands_binary (hplace.trans hparent) hget' (h.lt_size hlsize)
          (h.lt_size hrsize), h.widths_eq hlsize, h.widths_eq hrsize]
      exact h.agree_set (h.agree_set hagree hlsize _ _) hrsize _ _

theorem agree_placeBelow (hagree : Agree f b a places' places) :
    Agree f b a
      (Layout.placeBelow b (Layout.widths b) b.size (Nat.le_refl _) places')
      (Layout.placeBelow a (Layout.widths a) a.size (Nat.le_refl _) places) := by
  refine h.count_induction
    (motive := fun count m => ∀ (ha : count ≤ a.size) (hb : m ≤ b.size) places' places,
      Agree f b a places' places →
        Agree f b a (Layout.placeBelow b (Layout.widths b) m hb places')
          (Layout.placeBelow a (Layout.widths a) count ha places))
    ?_ ?_ ?_ _ _ _ _ hagree
  · exact fun _ _ _ _ hagree => hagree
  · intro i hi ih ha hb places' places hagree
    exact ih _ _ _ _ (h.agree_placeOperands hagree hi _)
  · intro id m hid hnone ih ha hb places' places hagree
    rw [Layout.placeBelow_succ, Layout.placeOperands_none (hagree.other id hid hnone)]
    exact ih _ _ _ _ hagree

end Embeds

end Arena

/-! ## What is shown -/

theorem flatMap_finRange {α : Type} {size : Nat} (g : Fin size → List α) :
    (List.finRange size).reverse.flatMap g =
      (List.range size).reverse.flatMap fun id => if h : id < size then g ⟨id, h⟩ else [] := by
  rw [← List.map_coe_finRange_eq_range, ← List.map_reverse, List.flatMap_map]
  simp

namespace Arena

/-- What corresponding nodes add alike, and the other nodes of the larger arena do not add to, is
the same of both arenas. -/
theorem Embeds.flatMap_eq {α : Type} {f : Nat → Nat} {a b : Arena} (h : Embeds f b a)
    {g : Fin a.size → List α} {g' : Fin b.size → List α}
    (hkept : ∀ i (hi : i < b.size) (hi' : f i < a.size), g ⟨f i, hi'⟩ = g' ⟨i, hi⟩)
    (hother : ∀ id (hid : id < a.size), (∀ i < b.size, f i ≠ id) → g ⟨id, hid⟩ = []) :
    (List.finRange a.size).reverse.flatMap g = (List.finRange b.size).reverse.flatMap g' := by
  rw [flatMap_finRange, flatMap_finRange]
  refine h.count_induction
    (motive := fun count m =>
      ((List.range count).reverse.flatMap fun id => if h : id < a.size then g ⟨id, h⟩ else []) =
        (List.range m).reverse.flatMap fun i => if h : i < b.size then g' ⟨i, h⟩ else [])
    rfl ?_ ?_
  · intro i hi ih
    rw [List.range_succ, List.range_succ, List.reverse_concat, List.reverse_concat,
      List.flatMap_cons, List.flatMap_cons, ih, dif_pos hi, dif_pos (h.lt_size hi), hkept i hi]
  · intro id i hid hnone ih
    rw [List.range_succ, List.reverse_concat, List.flatMap_cons, ih, dif_pos hid,
      hother id hid hnone, List.nil_append]

theorem Embeds.edgesFrom_eq {f : Nat → Nat} {a b : Arena} (h : Embeds f b a)
    {places' : Vector (Option Point) b.size} {places : Vector (Option Point) a.size}
    (hagree : Agree f b a places' places) (i : Nat) (hi : i < b.size) (hi' : f i < a.size) :
    Diagram.edgesFrom a places ⟨f i, hi'⟩ = Diagram.edgesFrom b places' ⟨i, hi⟩ := by
  have hplace : places.get ⟨f i, hi'⟩ = places'.get ⟨i, hi⟩ := hagree.kept i hi hi'
  have hget := b.get?_eq_node hi
  generalize b.node i hi = node at hget
  have hget' := h.get? i node hget
  cases hparent : places'.get ⟨i, hi⟩ with
  | none =>
    rw [Diagram.edgesFrom_none hparent, Diagram.edgesFrom_none (hplace.trans hparent)]
  | some parent =>
    cases node with
    | literal text =>
      have hnone : Diagram.edgesFrom a places ⟨f i, hi'⟩ = [] := Diagram.edgesFrom_literal hget'
      have hnone' : Diagram.edgesFrom b places' ⟨i, hi⟩ = [] := Diagram.edgesFrom_literal hget
      rw [hnone, hnone']
    | binary op left right =>
      obtain ⟨hl, hr⟩ := children_lt hget
      have hlsize := Nat.lt_trans hl hi
      have hrsize := Nat.lt_trans hr hi
      rw [Diagram.edgesFrom_binary hparent hget hlsize hrsize,
        Diagram.edgesFrom_binary (hplace.trans hparent) hget' (h.lt_size hlsize)
          (h.lt_size hrsize), hagree.kept left hlsize _, hagree.kept right hrsize _]

theorem Embeds.disc?_eq {f : Nat → Nat} {a b : Arena} (h : Embeds f b a)
    {places' : Vector (Option Point) b.size} {places : Vector (Option Point) a.size}
    (hagree : Agree f b a places' places) (i : Nat) (hi : i < b.size) (hi' : f i < a.size) :
    Diagram.disc? a places ⟨f i, hi'⟩ = Diagram.disc? b places' ⟨i, hi⟩ := by
  have hplace : places.get ⟨f i, hi'⟩ = places'.get ⟨i, hi⟩ := hagree.kept i hi hi'
  have hnode : a.node (f i) hi' = (b.node i hi).renumber f :=
    (get?_eq_some_iff.1 (h.get? i _ (b.get?_eq_node hi))).2
  rw [Diagram.disc?, Diagram.disc?, hplace, hnode, Node.label_renumber]

end Arena

/-- Two trees of which the same is shown. -/
structure Tree.Alike (t t' : Tree) : Prop where
  evaluate : t.evaluate = t'.evaluate
  drawing : t.drawing = t'.drawing
  svg : t.svg = t'.svg
  depth : t.depth = t'.depth

section

variable {f : Nat → Nat} {t t' : Tree} (h : t'.arena.Embeds f t.arena) (hroot : f t'.root = t.root)
include h hroot

theorem Tree.expr_of_embeds : t'.expr = t.expr := by
  obtain ⟨a, root, hlt⟩ := t
  obtain rfl : f t'.root = root := hroot
  exact (h.exprAt_eq t'.root_lt hlt).symm

theorem Layout.rootWidth_of_embeds : rootWidth t' = rootWidth t := by
  rw [rootWidth, rootWidth, Tree.fold_eq, Tree.fold_eq, Tree.expr_of_embeds h hroot]

theorem Tree.depth_of_embeds : t'.depth = t.depth := by
  rw [depth_eq, depth_eq, expr_of_embeds h hroot]

theorem Layout.agree_positions :
    Arena.Agree f t'.arena t.arena (positions t') (positions t) := by
  have hplace : rootPlace t' = rootPlace t := by
    rw [rootPlace, rootPlace, rootWidth_of_embeds h hroot]
  have hnone : Arena.Agree f t'.arena t.arena (Vector.replicate _ none) (Vector.replicate _ none) :=
    ⟨fun i hi hi' => by rw [Vector.getElem_replicate, Vector.getElem_replicate],
      fun id hid _ => Vector.getElem_replicate _⟩
  have hstart := h.agree_set hnone t'.root_lt (h.lt_size t'.root_lt) (some (rootPlace t'))
  rw [positions, positions]
  refine h.agree_placeBelow ?_
  simp only [hroot] at hstart
  rw [hplace] at hstart ⊢
  exact hstart

theorem Diagram.edges_of_embeds : (ofTree t').edges = (ofTree t).edges := by
  have hagree := Layout.agree_positions h hroot
  exact (h.flatMap_eq (h.edgesFrom_eq hagree)
    fun id hid hnone => edgesFrom_none (hagree.other id hid hnone)).symm

theorem Diagram.discs_of_embeds : (ofTree t').discs = (ofTree t).discs := by
  have hagree := Layout.agree_positions h hroot
  simp only [ofTree, List.filterMap_eq_flatMap_toList]
  refine (h.flatMap_eq (fun i hi hi' => congrArg _ (h.disc?_eq hagree i hi hi'))
    fun id hid hnone => ?_).symm
  have hplace : (Layout.positions t).get ⟨id, hid⟩ = none := hagree.other id hid hnone
  rw [disc?, hplace]
  rfl

theorem Diagram.ofTree_of_embeds : ofTree t' = ofTree t := by
  have hwidth : Layout.canvasWidth t' = Layout.canvasWidth t := by
    rw [Layout.canvasWidth, Layout.canvasWidth, Layout.rootWidth_of_embeds h hroot]
  have hheight : Layout.canvasHeight t' = Layout.canvasHeight t := by
    rw [Layout.canvasHeight, Layout.canvasHeight, Tree.depth_of_embeds h hroot]
  show Diagram.mk (Layout.canvasWidth t') (Layout.canvasHeight t') (ofTree t').edges
    (ofTree t').discs = _
  rw [hwidth, hheight, edges_of_embeds h hroot, discs_of_embeds h hroot]
  rfl

/-- Whatever else stands in the arena, trees with corresponding roots are shown alike. -/
theorem Tree.alike_of_embeds : Alike t' t where
  evaluate := by rw [evaluate_eq, evaluate_eq, expr_of_embeds h hroot]
  drawing := by rw [drawing, drawing, expr_of_embeds h hroot]
  svg := by rw [svg, svg, Diagram.ofTree_of_embeds h hroot]
  depth := depth_of_embeds h hroot

end

end Calculator
