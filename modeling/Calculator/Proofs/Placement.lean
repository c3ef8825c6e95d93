import Mathlib
import Calculator.Proofs.Pruning
import Calculator.Proofs.Unfolding
import Calculator.Proofs.WholeNumbers

/-!
# Places in a diagram

The nodes are gone through from the highest number down, and each node that has a place then gives
places to its operands (`Layout.Pass`). A node with several parents is given a place by each of them
that the root reaches, and keeps the one from the parent with the lowest number (`Layout.Placed`).
All parents of a node have higher numbers than the node has, so that its place is final before it
gives places itself (`Layout.Pass.settled`). `Layout.positions_by_parent` puts this together.
-/

namespace Calculator

namespace Arena

/-- The one node is an operand of the other. -/
def IsParent (a : Arena) (parent child : Nat) : Prop := ∃ side, a.child? parent side = some child

variable {a : Arena} {id child : Nat}

theorem IsParent.lt (h : a.IsParent id child) : child < id := by
  obtain ⟨side, hside⟩ := h
  exact lt_of_child? hside

theorem isParent_binary_iff {op : Operator} {left right : Nat}
    (h : a.get? id = some (.binary op left right)) :
    a.IsParent id child ↔ child = left ∨ child = right := by
  obtain ⟨hl, hr⟩ := child?_of_binary h
  constructor
  · rintro ⟨_ | _, hside⟩
    · simp_all
    · simp_all
  · rintro (rfl | rfl)
    · exact ⟨.left, hl⟩
    · exact ⟨.right, hr⟩

theorem not_isParent_literal {text : String} (h : a.get? id = some (.literal text)) :
    ¬ a.IsParent id child := by
  rintro ⟨side, hside⟩
  simp [child?_of_literal h] at hside

theorem Reaches.of_isParent {parent : Nat} (h : a.Reaches id parent)
    (hparent : a.IsParent parent child) : a.Reaches id child := by
  obtain ⟨path, hpath⟩ := h
  obtain ⟨side, hside⟩ := hparent
  exact ⟨path ++ [side], follow?_concat_iff.2 ⟨parent, hpath, hside⟩⟩

end Arena

namespace Layout

/-! ## The turn of one node -/

section

variable {a : Arena} {places places' : Vector (Option Point) a.size} {parent id : Nat}

/-- The node has a place. -/
def HasPlace {size : Nat} (places : Vector (Option Point) size) (id : Nat) : Prop :=
  ∃ place, places[id]? = some (some place)

/-- The node's place is the one that the parent gives it; a node that is both operands gets the
place of the right one. -/
def PlacedBy (a : Arena) (places : Vector (Option Point) a.size) (parent id : Nat) : Prop :=
  ∃ (op : Operator) (left right : Nat) (hl : left < a.size) (hr : right < a.size) (place : Point),
    a.get? parent = some (.binary op left right) ∧ (id = left ∨ id = right) ∧
    places[parent]? = some (some place) ∧
    places[id]? = some (some (if id = right
      then (operandPlaces place (widths a)[left] (widths a)[right]).2
      else (operandPlaces place (widths a)[left] (widths a)[right]).1))

theorem PlacedBy.hasPlace (h : PlacedBy a places parent id) : HasPlace places id := by
  obtain ⟨op, left, right, hl, hr, place, -, -, -, hid⟩ := h
  exact ⟨_, hid⟩

theorem PlacedBy.congr (h : PlacedBy a places parent id)
    (hparent : places'[parent]? = places[parent]?) (hid : places'[id]? = places[id]?) :
    PlacedBy a places' parent id := by
  obtain ⟨op, left, right, hl, hr, place, hget, hor, hplace, hvalue⟩ := h
  exact ⟨op, left, right, hl, hr, place, hget, hor, hparent.trans hplace, hid.trans hvalue⟩

/-- What a node does in its turn: it has no place or no operands, and nothing changes; or it gives
its operands their places, and all other nodes keep theirs. -/
inductive Turn (a : Arena) (id : Nat) (places places' : Vector (Option Point) a.size) : Prop
  | idle : ¬ (HasPlace places id ∧ ∃ child, a.IsParent id child) → places' = places →
      Turn a id places places'
  | gives : HasPlace places id → (∀ child, a.IsParent id child → PlacedBy a places' id child) →
      (∀ other, ¬ a.IsParent id other → places'[other]? = places[other]?) → Turn a id places places'

theorem turn_placeOperands (h : id < a.size) :
    Turn a id places (placeOperands a (widths a) id h places) := by
  have hsome : places[id]? = some places[id] := Vector.getElem?_eq_getElem h
  have hget := a.get?_eq_node h
  cases hplace : places[id] with
  | none =>
    refine .idle ?_ (placeOperands_none hplace)
    rintro ⟨⟨place, hid⟩, -⟩
    simp [hsome, hplace] at hid
  | some place =>
    rw [hplace] at hsome
    generalize a.node id h = node at hget
    cases node with
    | literal text =>
      refine .idle ?_ (placeOperands_literal hget)
      rintro ⟨-, child, hchild⟩
      exact Arena.not_isParent_literal hget hchild
    | binary op left right =>
      obtain ⟨hleft, hright⟩ := Arena.children_lt hget
      have hl := Nat.lt_trans hleft h
      have hr := Nat.lt_trans hright h
      rw [placeOperands_binary hplace hget hl hr]
      have hset (l r : Option Point) (other : Nat) : ((places.set left l).set right r)[other]? =
          if other = right then some r else if other = left then some l else places[other]? := by
        rw [Vector.getElem?_set hr, Vector.getElem?_set hl]
        simp only [eq_comm (a := other)]
      refine .gives ⟨place, hsome⟩ (fun child hchild => ?_) fun other hother => ?_
      · have hor := (Arena.isParent_binary_iff hget).1 hchild
        refine ⟨op, left, right, hl, hr, place, hget, hor, ?_, ?_⟩
        · rw [hset, if_neg (by omega), if_neg (by omega), hsome]
        · rw [hset]
          by_cases hc : child = right
          · rw [if_pos hc, if_pos hc]
          · rw [if_neg hc, if_neg hc, if_pos (hor.resolve_right hc)]
      · rw [Arena.isParent_binary_iff hget, not_or] at hother
        rw [hset, if_neg hother.2, if_neg hother.1]

/-- Only nodes of lower numbers are given a place. -/
theorem Turn.getElem?_of_le (h : Turn a id places places') {other : Nat} (hle : id ≤ other) :
    places'[other]? = places[other]? := by
  cases h with
  | idle _ heq => rw [heq]
  | gives _ _ hother => exact hother other fun hparent => absurd hparent.lt (Nat.not_lt.2 hle)

/-- No node loses its place. -/
theorem Turn.hasPlace (h : Turn a id places places') {other : Nat}
    (hplace : HasPlace places other) : HasPlace places' other := by
  cases h with
  | idle _ heq => rwa [heq]
  | gives _ hoperand hother =>
    by_cases hparent : a.IsParent id other
    · exact (hoperand other hparent).hasPlace
    · rwa [HasPlace, hother other hparent]

end

/-! ## The pass -/

/-- The places when the nodes from `count` on have had their turn. -/
inductive Pass (t : Tree) : Nat → Vector (Option Point) t.arena.size → Prop
  | start : Pass t t.arena.size
      ((Vector.replicate t.arena.size none).set t.root (some (rootPlace t)) t.root_lt)
  | step {id : Nat} {places : Vector (Option Point) t.arena.size} (h : id < t.arena.size) :
      Pass t (id + 1) places → Pass t id (placeOperands t.arena (widths t.arena) id h places)

section

variable {t : Tree} {count : Nat} {places places' : Vector (Option Point) t.arena.size}

theorem Pass.placeBelow (h : Pass t count places) (hcount : count ≤ t.arena.size) :
    Pass t 0 (placeBelow t.arena (widths t.arena) count hcount places) := by
  induction count generalizing places with
  | zero => exact h
  | succ id ih => exact ih (.step hcount h) _

theorem pass_positions (t : Tree) : Pass t 0 (positions t) := Pass.start.placeBelow _

theorem Pass.positions_eq (h : Pass t count places) :
    ∃ hcount, positions t = Layout.placeBelow t.arena (widths t.arena) count hcount places := by
  induction h with
  | start => exact ⟨Nat.le_refl _, rfl⟩
  | step hid _ ih =>
    obtain ⟨_, heq⟩ := ih
    exact ⟨Nat.le_of_lt hid, heq.trans (placeBelow_succ _ _)⟩

theorem getElem?_placeBelow (hcount : count ≤ t.arena.size) {id : Nat} (h : count ≤ id + 1) :
    (placeBelow t.arena (widths t.arena) count hcount places)[id]? = places[id]? := by
  induction count generalizing places with
  | zero => rfl
  | succ next ih =>
    rw [placeBelow_succ, ih _ (by omega)]
    exact (turn_placeOperands hcount).getElem?_of_le (by omega)

/-- When its turn comes, and from then on, a node has the place that it has at the end. -/
theorem Pass.settled (h : Pass t count places) {id : Nat} (hid : count ≤ id + 1) :
    places[id]? = (positions t)[id]? := by
  obtain ⟨hcount, heq⟩ := h.positions_eq
  rw [heq, getElem?_placeBelow hcount hid]

/-- What holds of the places while the pass goes on: the root is where it starts, only nodes that
the root reaches have a place, all operands of nodes that had their turn have one if these have, and
each is placed by the parent whose turn was last. -/
structure Placed (t : Tree) (count : Nat) (places : Vector (Option Point) t.arena.size) :
    Prop where
  root : places[t.root]? = some (some (rootPlace t))
  reaches : ∀ id, HasPlace places id → t.arena.Reaches t.root id
  operands : ∀ parent id, count ≤ parent → HasPlace places parent → t.arena.IsParent parent id →
    HasPlace places id
  least : ∀ id, id ≠ t.root → HasPlace places id → ∃ parent,
    IsLeast {p | count ≤ p ∧ HasPlace places p ∧ t.arena.IsParent p id} parent ∧
      PlacedBy t.arena places parent id

theorem placed_start (t : Tree) : Placed t t.arena.size
    ((Vector.replicate t.arena.size none).set t.root (some (rootPlace t)) t.root_lt) := by
  have hroot {id : Nat} (h : HasPlace ((Vector.replicate t.arena.size none).set t.root
      (some (rootPlace t)) t.root_lt) id) : id = t.root := by
    obtain ⟨place, hplace⟩ := h
    by_contra hne
    rw [Vector.getElem?_set_ne _ (Ne.symm hne), Vector.getElem?_replicate] at hplace
    split at hplace <;> simp at hplace
  refine ⟨Vector.getElem?_set_self t.root_lt, fun id hid => ?_, fun parent id hle hparent => ?_,
    fun id hne hid => absurd (hroot hid) hne⟩
  · obtain rfl := hroot hid
    exact .refl _ _
  · obtain rfl := hroot hparent
    exact absurd t.root_lt (Nat.not_lt.2 hle)

theorem Placed.turn {id : Nat} (h : Placed t (id + 1) places)
    (hturn : Turn t.arena id places places') : Placed t id places' := by
  cases hturn with
  | idle hidle heq =>
    -- The node is none of the parents that count.
    subst heq
    have hnext {parent child : Nat} (hle : id ≤ parent) (hparent : HasPlace places' parent)
        (hchild : t.arena.IsParent parent child) : id + 1 ≤ parent := by
      rcases Nat.lt_or_eq_of_le hle with hlt | rfl
      · exact hlt
      · exact absurd ⟨hparent, child, hchild⟩ hidle
    refine ⟨h.root, h.reaches, fun parent child hle hparent hchild =>
      h.operands parent child (hnext hle hparent hchild) hparent hchild, fun child hne hchild => ?_⟩
    obtain ⟨parent, ⟨hmem, hleast⟩, hby⟩ := h.least child hne hchild
    exact ⟨parent, ⟨⟨Nat.le_of_succ_le hmem.1, hmem.2⟩,
      fun p hp => hleast ⟨hnext hp.1 hp.2.1 hp.2.2, hp.2⟩⟩, hby⟩
  | gives hplace hoperand hother =>
    have hsame {other : Nat} (hle : id ≤ other) : places'[other]? = places[other]? :=
      (Turn.gives hplace hoperand hother).getElem?_of_le hle
    have hreach := h.reaches id hplace
    refine ⟨?_, fun child hchild => ?_, fun parent child hle hparent hchild => ?_,
      fun child hne hchild => ?_⟩
    · rw [hsame hreach.le, h.root]
    · by_cases hparent : t.arena.IsParent id child
      · exact hreach.of_isParent hparent
      · rw [HasPlace, hother child hparent] at hchild
        exact h.reaches child hchild
    · rcases Nat.lt_or_eq_of_le hle with hlt | rfl
      · rw [HasPlace, hsame hle] at hparent
        exact (Turn.gives hplace hoperand hother).hasPlace
          (h.operands parent child hlt hparent hchild)
      · exact (hoperand child hchild).hasPlace
    · by_cases hparent : t.arena.IsParent id child
      · -- The node is now the parent with the lowest number.
        have hplace' : HasPlace places' id := by rwa [HasPlace, hsame (Nat.le_refl id)]
        exact ⟨id, ⟨⟨Nat.le_refl id, hplace', hparent⟩, fun p hp => hp.1⟩, hoperand child hparent⟩
      · rw [HasPlace, hother child hparent] at hchild
        obtain ⟨parent, ⟨hmem, hleast⟩, hby⟩ := h.least child hne hchild
        have hle : id ≤ parent := Nat.le_of_succ_le hmem.1
        refine ⟨parent, ⟨⟨hle, ?_, hmem.2.2⟩, fun p hp => ?_⟩,
          hby.congr (hsame hle) (hother child hparent)⟩
        · rw [HasPlace, hsame hle]
          exact hmem.2.1
        · rcases Nat.lt_or_eq_of_le hp.1 with hlt | rfl
          · have hp' := hp.2.1
            rw [HasPlace, hsame hp.1] at hp'
            exact hleast ⟨hlt, hp', hp.2.2⟩
          · exact absurd hp.2.2 hparent

theorem Pass.placed (h : Pass t count places) : Placed t count places := by
  induction h with
  | start => exact placed_start t
  | step hid _ ih => exact ih.turn (turn_placeOperands hid)

end

/-! ## The places at the end -/

/-- The nodes that have a place are those that the root reaches. -/
theorem hasPlace_positions_iff {t : Tree} {id : Nat} :
    HasPlace (positions t) id ↔ t.arena.Reaches t.root id := by
  have hplaced := (pass_positions t).placed
  refine ⟨hplaced.reaches id, ?_⟩
  rintro ⟨path, hpath⟩
  induction path using List.reverseRecOn generalizing id with
  | nil =>
    obtain rfl := Option.some.inj hpath
    exact ⟨_, hplaced.root⟩
  | append_singleton rest side ih =>
    obtain ⟨parent, hparent, hchild⟩ := Arena.follow?_concat_iff.1 hpath
    exact hplaced.operands parent id (Nat.zero_le _) (ih hparent) ⟨side, hchild⟩

/-- All other nodes than the root are placed by the lowest of the parents that the root reaches. -/
theorem exists_placedBy {t : Tree} {id : Nat} (h : t.arena.Reaches t.root id) (hne : id ≠ t.root) :
    ∃ parent, IsLeast {p | t.arena.Reaches t.root p ∧ t.arena.IsParent p id} parent ∧
      PlacedBy t.arena (positions t) parent id := by
  have hleast := (pass_positions t).placed.least id hne (hasPlace_positions_iff.2 h)
  simpa only [Nat.zero_le, true_and, hasPlace_positions_iff] using hleast

/-! ## Levels -/

/-- An operand stands one level below the parent that places it. -/
theorem PlacedBy.below {a : Arena} {places : Vector (Option Point) a.size} {parent id : Nat}
    (h : PlacedBy a places parent id) {place : Point} (hplace : places[id]? = some (some place)) :
    ∃ above, places[parent]? = some (some above) ∧ place.y = above.y + levelHeight := by
  obtain ⟨op, left, right, hl, hr, above, -, -, hparent, hid⟩ := h
  rw [hplace, Option.some.injEq, Option.some.injEq] at hid
  refine ⟨above, hparent, ?_⟩
  rw [hid]
  split <;> rfl

section

variable {t : Tree} (hheight : 64 + 90 * t.depth ≤ 2 ^ 53)
include hheight

theorem canvasHeight_eq : canvasHeight t = .ofNat (64 + 90 * t.depth) := by
  have hlevels : Binary64.ofNat t.depth * levelHeight = .ofNat (t.depth * 90) :=
    Binary64.mul_ofNat (by omega) (by decide)
  have htop : topMargin + .ofNat (t.depth * 90) = .ofNat (24 + t.depth * 90) :=
    Binary64.add_ofNat (by decide) (by omega)
  have hbottom : Binary64.ofNat (24 + t.depth * 90) + bottomMargin =
      .ofNat (24 + t.depth * 90 + 40) :=
    Binary64.add_ofNat (by omega) (by decide)
  rw [canvasHeight, hlevels, htop, hbottom]
  exact congrArg Binary64.ofNat (by omega)

/-- A path leads to each node with a place, as many steps long as the node is levels down. -/
theorem exists_level {id : Nat} {place : Point} (h : (positions t)[id]? = some (some place)) :
    ∃ path, t.arena.follow? t.root path = some id ∧ path.length < t.depth ∧
      place.y = .ofNat (24 + 90 * path.length) := by
  have hlength {path : List Side} {other : Nat} (hpath : t.arena.follow? t.root path = some other) :
      path.length < t.depth := by
    rw [Tree.depth_eq]
    exact Arena.length_lt_depth t.root_lt hpath
  induction hrest : t.arena.size - id using Nat.strongRecOn generalizing id place with
  | ind rest ih =>
    by_cases hne : id = t.root
    · subst hne
      rw [(pass_positions t).placed.root, Option.some.injEq, Option.some.injEq] at h
      subst h
      have htop : topMargin = .ofNat (24 + 90 * 0) := by rw [Nat.mul_zero]; rfl
      exact ⟨[], rfl, hlength (show t.arena.follow? t.root [] = some t.root from rfl), htop⟩
    · obtain ⟨parent, ⟨⟨hreach, side, hside⟩, -⟩, hby⟩ :=
        exists_placedBy (hasPlace_positions_iff.1 ⟨place, h⟩) hne
      obtain ⟨above, habove, hy⟩ := hby.below h
      -- The parent has a higher number, so there are fewer nodes from it on.
      have hlt := Arena.lt_of_child? hside
      have hsize := Nat.lt_of_le_of_lt hreach.le t.root_lt
      obtain ⟨path, hpath, hdepth, hlevel⟩ :=
        ih (t.arena.size - parent) (by omega) habove rfl
      have hdown := Arena.follow?_concat_iff.2 ⟨parent, hpath, hside⟩
      refine ⟨path ++ [side], hdown, hlength hdown, ?_⟩
      have hnext : Binary64.ofNat (24 + 90 * path.length) + levelHeight =
          .ofNat (24 + 90 * path.length + 90) :=
        Binary64.add_ofNat (by omega) (by decide)
      rw [hy, hlevel, hnext, List.length_append, List.length_singleton]
      exact congrArg Binary64.ofNat (by omega)

end

theorem depth_le_nodeCount (t : Tree) : t.depth ≤ t.nodeCount := by
  have hbound : t.expr.depth ≤ {id | t.arena.Reaches t.root id}.ncard :=
    Arena.depth_le_ncard t.root_lt
  have hkept : t.kept.length ≤ t.nodeCount :=
    Nat.le_trans (List.length_filter_le ..) (Nat.le_of_eq List.length_range)
  rw [Tree.ncard_reaches, Tree.nodeCount_prune] at hbound
  rw [Tree.depth_eq]
  exact Nat.le_trans hbound hkept

/-- After the pass the nodes that the root reaches have a place, and no others. The root has the one
that it had from the start, and every other node the one that its parent gives it, the parent with
the lowest number of those that the root reaches; it stands one level below this parent. A node has
its final place when its turn comes, so that no place is used and then changed. With no more nodes
than there are 32-bit words, no node stands lower than the lowest level, which is inside the
canvas. -/
theorem positions_by_parent (t : Tree) :
    (∀ id : Nat, (∃ place, (positions t)[id]? = some (some place)) ↔
      t.arena.Reaches t.root id) ∧
    (positions t)[t.root]? = some (some ⟨rootWidth t / 2 + 20, 24⟩) ∧
    (∀ id, t.arena.Reaches t.root id → id ≠ t.root → ∃ (parent : Nat) (place above : Point),
      IsLeast {p | t.arena.Reaches t.root p ∧ t.arena.IsParent p id} parent ∧
      PlacedBy t.arena (positions t) parent id ∧ (positions t)[id]? = some (some place) ∧
      (positions t)[parent]? = some (some above) ∧ place.y = above.y + 90) ∧
    Pass t 0 (positions t) ∧
    (∀ count places, Pass t count places →
      (∀ id : Nat, count ≤ id + 1 → places[id]? = (positions t)[id]?) ∧
      places[t.root]? = (positions t)[t.root]?) ∧
    (t.nodeCount ≤ 2 ^ 32 → ∀ (id : Nat) (place : Point), (positions t)[id]? = some (some place) →
      (canvasHeight t).toRat? = some (64 + 90 * t.depth : ℚ) ∧
      ∃ y : ℚ, place.y.toRat? = some y ∧ y ≤ 24 + 90 * (t.depth - 1) ∧
        y + 18 ≤ 64 + 90 * t.depth) := by
  have hroot := (pass_positions t).placed.root
  refine ⟨fun id => hasPlace_positions_iff, hroot, fun id hreach hne => ?_, pass_positions t,
    fun count places hpass => ⟨fun id hid => hpass.settled hid, ?_⟩, fun hcount id place h => ?_⟩
  · obtain ⟨parent, hleast, hby⟩ := exists_placedBy hreach hne
    obtain ⟨place, hplace⟩ := hby.hasPlace
    obtain ⟨above, habove, hy⟩ := hby.below hplace
    exact ⟨parent, place, above, hleast, hby, hplace, habove, hy⟩
  · rw [hpass.placed.root, hroot]
  · have hdepth := depth_le_nodeCount t
    have hheight : 64 + 90 * t.depth ≤ 2 ^ 53 := by omega
    obtain ⟨path, -, hlength, hy⟩ := exists_level hheight h
    have hlevel : ((24 + 90 * path.length : Nat) : ℚ) ≤ 24 + 90 * ((t.depth : ℚ) - 1) := by
      have hle : (path.length : ℚ) + 1 ≤ t.depth := by exact_mod_cast hlength
      push_cast
      linarith
    refine ⟨?_, ((24 + 90 * path.length : Nat) : ℚ), ?_, hlevel, by linarith⟩
    · rw [canvasHeight_eq hheight, Binary64.toRat?_ofNat hheight]
      push_cast
      rfl
    · rw [hy, Binary64.toRat?_ofNat (by omega)]

/-- A node with three parents: the root, another that gives it its place as both of its operands,
and one with a lower number that the root does not reach. -/
theorem positions_by_parent_shared :
    let calls : List Arena.Call :=
      [.literal "1", .binary .add 0 0, .binary .mul 0 0, .binary .sub 2 0]
    let a := (Arena.empty.run calls).2
    ∃ t, Tree.ofArena? a 3 = some t ∧
      (t.arena.Reaches t.root 0 ∧ 0 ≠ t.root ∧ ∃ (parent : Nat) (place above : Point),
        IsLeast {p | t.arena.Reaches t.root p ∧ t.arena.IsParent p 0} parent ∧
        PlacedBy t.arena (positions t) parent 0 ∧ (positions t)[0]? = some (some place) ∧
        (positions t)[parent]? = some (some above) ∧ place.y = above.y + 90) ∧
      (∃ places, Pass t 4 places ∧ 4 ≤ 3 + 1 ∧ places[3]? = (positions t)[3]? ∧
        places[t.root]? = (positions t)[t.root]?) ∧
      t.nodeCount ≤ 2 ^ 32 ∧ ∃ place, (positions t)[0]? = some (some place) ∧
        (canvasHeight t).toRat? = some (64 + 90 * t.depth : ℚ) ∧
        ∃ y : ℚ, place.y.toRat? = some y ∧ y ≤ 24 + 90 * (t.depth - 1) ∧
          y + 18 ≤ 64 + 90 * t.depth := by
  intro calls a
  have hroot : 3 < a.size := by decide
  have hreach : a.Reaches 3 0 := ⟨[.right], by decide⟩
  have hne : 0 ≠ 3 := by decide
  have hcount : a.size ≤ 2 ^ 32 := by decide
  have hpass : Pass ⟨a, 3, hroot⟩ 4 _ := .start
  obtain ⟨hplace, -, hparent, -, hsettled, hlevel⟩ := positions_by_parent ⟨a, 3, hroot⟩
  obtain ⟨hfinal, hfixed⟩ := hsettled 4 _ hpass
  obtain ⟨place, hzero⟩ := (hplace 0).2 hreach
  exact ⟨⟨a, 3, hroot⟩, dif_pos hroot, ⟨hreach, hne, hparent 0 hreach hne⟩,
    ⟨_, hpass, Nat.le_refl _, hfinal 3 (Nat.le_refl _), hfixed⟩, hcount, place, hzero,
    hlevel hcount 0 place hzero⟩

end Layout

end Calculator
