import Mathlib
import Calculator.Drawing
import Calculator.Proofs.Answers
import Calculator.Proofs.PostorderNumbers

/-!
# What a drawing tells

If no literal has a line end in it, the lines of a drawing can be told apart, and the margins tell
which of them belong to the left operand: all up to the first that begins with the margin alone and
the last fork (`Expr.branches_inj`). So a drawing is that of one expression only
(`Expr.drawing_inj`). Trees that texts are built to are numbered by their expressions alone, so
their drawings tell them apart (`Tree.drawing_eq_iff`).
-/

namespace Calculator

open Text (OneLine oneLine_append)

theorem Operator.text_inj {op op' : Operator} : op.text = op'.text ↔ op = op' := by
  cases op <;> cases op' <;> decide +kernel

theorem Operator.text_oneLine (op : Operator) : OneLine op.text := by
  cases op <;> decide +kernel

/-- Where an element stands that the other list's first part does not have, and the other way
round, both lists are split at the same place. -/
theorem split_eq {α : Type} {xs xs' ys ys' : List α} {x x' : α}
    (h : xs ++ x :: ys = xs' ++ x' :: ys') (hx : x ∉ xs') (hx' : x' ∉ xs) :
    xs = xs' ∧ x = x' ∧ ys = ys' := by
  rcases List.append_eq_append_iff.1 h with ⟨_ | ⟨y, more⟩, rfl, hrest⟩ | ⟨_ | ⟨y, more⟩, rfl, hrest⟩
  · obtain ⟨rfl, rfl⟩ := List.cons.inj hrest
    exact ⟨(List.append_nil xs).symm, rfl, rfl⟩
  · obtain ⟨rfl, -⟩ := List.cons.inj hrest
    exact absurd (List.mem_append_right xs (.head _)) hx
  · obtain ⟨rfl, rfl⟩ := List.cons.inj hrest
    exact ⟨List.append_nil xs', rfl, rfl⟩
  · obtain ⟨rfl, -⟩ := List.cons.inj hrest
    exact absurd (List.mem_append_right xs' (.head _)) hx'

namespace Expr

/-! ## Lines that belong to an operand -/

theorem exists_of_mem_branches {e : Expr} {margin line : String} (h : line ∈ e.branches margin) :
    ∃ rest, line = margin ++ rest := by
  induction e generalizing margin with
  | literal text => cases h
  | binary op left right ihl ihr =>
    rw [branches, List.mem_append, List.mem_cons, List.mem_cons] at h
    rcases h with (rfl | h) | rfl | h
    · exact ⟨_, String.append_assoc⟩
    · obtain ⟨rest, rfl⟩ := ihl h
      exact ⟨_, String.append_assoc⟩
    · exact ⟨_, String.append_assoc⟩
    · obtain ⟨rest, rfl⟩ := ihr h
      exact ⟨_, String.append_assoc⟩

/-- The right operand's own line is none of those below the left operand. -/
theorem last_not_mem_branches (e : Expr) (margin label : String) :
    margin ++ "└── " ++ label ∉ e.branches (margin ++ "│   ") := by
  intro h
  obtain ⟨rest, hrest⟩ := exists_of_mem_branches h
  rw [String.append_assoc, String.append_assoc, String.append_right_inj] at hrest
  have hhead := congrArg (fun line => line.toList.head?) hrest
  simp at hhead

/-- The lines below an expression's own line, with the label that stands in it, are those of no
other expression. -/
theorem branches_inj {e e' : Expr} {margin : String} (hlabel : e.label = e'.label)
    (h : e.branches margin = e'.branches margin) : e = e' := by
  induction e generalizing e' margin with
  | literal text =>
    cases e' with
    | literal text' => exact congrArg literal hlabel
    | binary op' left' right' => cases h
  | binary op left right ihl ihr =>
    cases e' with
    | literal text' => cases h
    | binary op' left' right' =>
      obtain rfl := Operator.text_inj.1 hlabel
      rw [branches, branches, List.cons_append, List.cons_append] at h
      obtain ⟨hown, hbelow⟩ := List.cons.inj h
      obtain ⟨hleft, hlast, hright⟩ := split_eq hbelow (last_not_mem_branches _ _ _)
        (last_not_mem_branches _ _ _)
      rw [ihl ((String.append_right_inj _).1 hown) hleft,
        ihr ((String.append_right_inj _).1 hlast) hright]

/-! ## Lines that are told apart -/

/-- The labels that are drawn have no line end in them. -/
def Plain (e : Expr) : Prop := ∀ text ∈ e.literals, OneLine text

theorem Plain.left {op : Operator} {l r : Expr} (h : Plain (.binary op l r)) : l.Plain :=
  fun text htext => h text (List.mem_append_left _ htext)

theorem Plain.right {op : Operator} {l r : Expr} (h : Plain (.binary op l r)) : r.Plain :=
  fun text htext => h text (List.mem_append_right _ htext)

theorem Plain.label {e : Expr} (h : e.Plain) : OneLine e.label := by
  cases e with
  | literal text => exact h text (.head _)
  | binary op left right => exact op.text_oneLine

theorem Plain.branches {e : Expr} (h : e.Plain) {margin : String} (hmargin : OneLine margin) :
    ∀ line ∈ e.branches margin, OneLine line := by
  induction e generalizing margin with
  | literal text => exact nofun
  | binary op left right ihl ihr =>
    have hfork : OneLine (margin ++ "├── ") := oneLine_append.2 ⟨hmargin, by decide +kernel⟩
    have hlast : OneLine (margin ++ "└── ") := oneLine_append.2 ⟨hmargin, by decide +kernel⟩
    have hrule : OneLine (margin ++ "│   ") := oneLine_append.2 ⟨hmargin, by decide +kernel⟩
    have hblank : OneLine (margin ++ "    ") := oneLine_append.2 ⟨hmargin, by decide +kernel⟩
    intro line hline
    rw [Expr.branches, List.mem_append, List.mem_cons, List.mem_cons] at hline
    rcases hline with (rfl | hline) | rfl | hline
    · exact oneLine_append.2 ⟨hfork, h.left.label⟩
    · exact ihl h.left hrule line hline
    · exact oneLine_append.2 ⟨hlast, h.right.label⟩
    · exact ihr h.right hblank line hline

/-- The lines of a drawing are read from it. -/
theorem Plain.lines_drawing {e : Expr} (h : e.Plain) : Text.lines e.drawing = e.drawingLines :=
  Text.lines_terminated
    (List.forall_mem_cons.2 ⟨h.label, h.branches (show OneLine "" from nofun)⟩)

theorem drawing_inj {e e' : Expr} (h : e.Plain) (h' : e'.Plain) :
    e.drawing = e'.drawing ↔ e = e' := by
  refine ⟨fun hdrawing => ?_, congrArg drawing⟩
  have hlines : e.drawingLines = e'.drawingLines := by
    rw [← h.lines_drawing, hdrawing, h'.lines_drawing]
  obtain ⟨hlabel, hbranches⟩ := List.cons.inj hlines
  exact branches_inj hlabel hbranches

end Expr

/-! ## Trees of texts -/

namespace Tree

open Token (tokenize toPostfix)

/-- The literals of a tree that a text is built to are numbers in the text. -/
theorem plain_of_text {source : String} {t : Tree}
    (h : ofPostfix (toPostfix (tokenize source)) = .ok t) : t.expr.Plain := by
  intro text htext
  rw [← Expr.literals_postorder, postorder_of_ofPostfix h, Token.literals_toPostfix] at htext
  exact ((Token.lexical_scan _ _).isNumeral (Token.mem_literals.1 htext)).oneLine

/-- Trees that are built for one expression are the same. -/
theorem eq_of_expr_eq {tokens tokens' : List Token} {t t' : Tree} (h : ofPostfix tokens = .ok t)
    (h' : ofPostfix tokens' = .ok t') (hexpr : t.expr = t'.expr) : t = t' := by
  have htokens : tokens = tokens' := by
    rw [← postorder_of_ofPostfix h, ← postorder_of_ofPostfix h', hexpr]
  rw [htokens, h'] at h
  exact (Except.ok.inj h).symm

/-- The drawings of trees that texts are built to are the same exactly if the trees are: the same
nodes in the same order, and the same root. -/
theorem drawing_eq_iff {source source' : String} {t t' : Tree}
    (h : ofPostfix (toPostfix (tokenize source)) = .ok t)
    (h' : ofPostfix (toPostfix (tokenize source')) = .ok t') :
    t.drawing = t'.drawing ↔ t = t' := by
  refine ⟨fun hdrawing => ?_, congrArg drawing⟩
  exact eq_of_expr_eq h h' ((Expr.drawing_inj (plain_of_text h) (plain_of_text h')).1 hdrawing)

/-- Two texts of one tree, and a third of a tree that differs from it in a literal's sign. -/
theorem drawing_eq_iff_sign :
    ∃ t t' t'', ofPostfix (toPostfix (tokenize "1--3*(2)")) = .ok t ∧
      ofPostfix (toPostfix (tokenize "1 - (-3 * 2")) = .ok t' ∧
      ofPostfix (toPostfix (tokenize "1-3*2")) = .ok t'' ∧
      (t.drawing = t'.drawing ∧ t = t') ∧ (t.drawing ≠ t''.drawing ∧ t ≠ t'') := by
  let signed : List Token :=
    [.number "1", .number "-3", .number "2", .operator .mul, .operator .sub]
  let unsigned : List Token :=
    [.number "1", .number "3", .number "2", .operator .mul, .operator .sub]
  have hgrouped : toPostfix (tokenize "1--3*(2)") = signed := by decide +kernel
  have hopen : toPostfix (tokenize "1 - (-3 * 2") = signed := by decide +kernel
  have hplain : toPostfix (tokenize "1-3*2") = unsigned := by decide +kernel
  obtain ⟨t, ht⟩ : ∃ t, ofPostfix signed = .ok t := ⟨_, rfl⟩
  obtain ⟨t'', ht''⟩ : ∃ t'', ofPostfix unsigned = .ok t'' := ⟨_, rfl⟩
  have hne : t ≠ t'' := by
    rintro rfl
    have htokens : signed = unsigned :=
      (postorder_of_ofPostfix ht).symm.trans (postorder_of_ofPostfix ht'')
    exact absurd htokens (by decide)
  rw [← hgrouped] at ht
  have ht' := ht
  rw [hgrouped, ← hopen] at ht'
  rw [← hplain] at ht''
  exact ⟨t, t, t'', ht, ht', ht'', ⟨(drawing_eq_iff ht ht').2 rfl, rfl⟩,
    (drawing_eq_iff ht ht'').not.2 hne, hne⟩

end Tree

end Calculator
