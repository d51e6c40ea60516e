import StackCalc.Proofs.Labels
import StackCalc.Proofs.Listings
import StackCalc.Proofs.Printing
import StackCalc.Source.Outline

/-!
# What an outline tells

Nothing in an outline closes what was opened: where the children of a node end is told by the
depths of the lines alone. That is enough to read the tree back from any outline. The lines are
told apart by their line feeds, their depths by the blanks in front of a word, and the labels by
the word and what stands behind it, where a name has no comma or parenthesis in it and a number is
the only one with its text. So programs with one outline differ in their spans at most.
-/

namespace StackCalc

namespace Text

/-- Where the characters in front of a place are of a kind and the one at it is not, the text tells
the place. -/
theorem append_inj_of_all {p : Char → Bool} {front front' back back' : List Char}
    (hfront : ∀ x ∈ front, p x = true) (hfront' : ∀ x ∈ front', p x = true)
    (hback : back.head?.all (!p ·) = true) (hback' : back'.head?.all (!p ·) = true)
    (h : front ++ back = front' ++ back') : front = front' ∧ back = back' := by
  have hsame : front = front' := by
    rw [← Decimal.takeWhile_append_of_all hfront hback, h,
      Decimal.takeWhile_append_of_all hfront' hback']
  subst hsame
  exact ⟨rfl, List.append_cancel_left h⟩

theorem toList_unlines_cons (line : String) (lines : List String) :
    (unlines (line :: lines)).toList = line.toList ++ '\n' :: (unlines lines).toList := by
  simp [unlines]

theorem OneLine.all {line : String} (h : OneLine line) : ∀ x ∈ line.toList, (x != '\n') = true := by
  intro x hx
  rw [bne_iff_ne]
  rintro rfl
  exact h hx

theorem unlines_inj {lines lines' : List String} (h : ∀ line ∈ lines, OneLine line)
    (h' : ∀ line ∈ lines', OneLine line) (heq : unlines lines = unlines lines') :
    lines = lines' := by
  have hchars := congrArg String.toList heq
  induction lines generalizing lines' with
  | nil =>
      cases lines' with
      | nil => rfl
      | cons line' lines' => simp [unlines] at hchars
  | cons line lines ih =>
      cases lines' with
      | nil => simp [unlines] at hchars
      | cons line' lines' =>
          obtain ⟨hline, hlines⟩ := List.forall_mem_cons.1 h
          obtain ⟨hline', hlines'⟩ := List.forall_mem_cons.1 h'
          rw [toList_unlines_cons, toList_unlines_cons] at hchars
          obtain ⟨hfirst, hrest⟩ := append_inj_of_all (p := (· != '\n')) hline.all hline'.all
            rfl rfl hchars
          have hrest := (List.cons.inj hrest).2
          rw [String.toList_injective hfirst,
            ih hlines hlines' (String.toList_injective hrest) hrest]

/-- A line that begins with something else than a blank tells its depth. -/
theorem indented_inj {width depth depth' : Nat} {line line' : String} {c c' : Char}
    {rest rest' : List Char} (hwidth : 0 < width) (hline : line.toList = c :: rest)
    (hline' : line'.toList = c' :: rest') (hc : c ≠ ' ') (hc' : c' ≠ ' ')
    (h : indented width depth line = indented width depth' line') :
    depth = depth' ∧ line = line' := by
  have hchars := congrArg String.toList h
  simp only [indented, String.toList_append, String.toList_ofList, hline, hline'] at hchars
  have hblank (n : Nat) : ∀ x ∈ List.replicate n ' ', (x == ' ') = true := fun x hx =>
    beq_iff_eq.2 (List.eq_of_mem_replicate hx)
  obtain ⟨hblanks, hrest⟩ := append_inj_of_all (p := (· == ' ')) (hblank _) (hblank _)
    (by simpa using hc) (by simpa using hc') hchars
  have hcount := congrArg List.length hblanks
  rw [List.length_replicate, List.length_replicate] at hcount
  exact ⟨Nat.eq_of_mul_eq_mul_left hwidth hcount,
    String.toList_injective (hline.trans (hrest.trans hline'.symm))⟩

end Text

theorem Number.text_inj {a b : Number} (ha : a.isFinite = true) (hb : b.isFinite = true)
    (h : a.text = b.text) : a = b := by
  have hchars : a.chars = b.chars := String.ofList_injective h
  rw [← a.read_chars ha, ← b.read_chars hb, hchars]

theorem BinaryOp.symbol_injective : Function.Injective symbol := by
  intro op op' h
  cases op <;> cases op' <;> cases h <;> rfl

namespace Source

theorem IsIdentifier.ne_nil {name : String} (h : IsIdentifier name) : name.toList ≠ [] := by
  obtain ⟨c, tail, hchars, -⟩ := h
  exact hchars ▸ List.cons_ne_nil c tail

theorem IsIdentifier.oneLine {name : String} (h : IsIdentifier name) : Text.OneLine name :=
  fun hmem => Bool.noConfusion (h.all _ hmem)

/-- What stands behind a name in a list of names, the end of the list included. -/
def behindName : List String → List Char
  | [] => [')']
  | name :: names => ',' :: ' ' :: (name.toList ++ behindName names)

theorem head_behindName (names : List String) :
    (behindName names).head?.all (!Lexer.continuesName ·) = true := by
  cases names with
  | nil => rfl
  | cons name names => rfl

theorem toList_intercalate_close (name : String) (names : List String) :
    (String.intercalate ", " (name :: names)).toList ++ [')'] =
      name.toList ++ behindName names := by
  induction names generalizing name with
  | nil => simp [behindName]
  | cons name' names ih =>
      rw [String.intercalate_cons_cons, behindName, ← ih]
      simp

theorem behindName_inj {names names' : List String} (h : ∀ name ∈ names, IsIdentifier name)
    (h' : ∀ name ∈ names', IsIdentifier name) (heq : behindName names = behindName names') :
    names = names' := by
  induction names generalizing names' with
  | nil =>
      cases names' with
      | nil => rfl
      | cons name' names' => cases heq
  | cons name names ih =>
      cases names' with
      | nil => cases heq
      | cons name' names' =>
          obtain ⟨hname, hnames⟩ := List.forall_mem_cons.1 h
          obtain ⟨hname', hnames'⟩ := List.forall_mem_cons.1 h'
          simp only [behindName, List.cons.injEq, true_and] at heq
          obtain ⟨hfirst, hrest⟩ := Text.append_inj_of_all hname.all hname'.all
            (head_behindName names) (head_behindName names') heq
          rw [String.toList_injective hfirst, ih hnames hnames' hrest]

/-- Names with commas between them are told apart again. -/
theorem intercalate_inj {names names' : List String} (h : ∀ name ∈ names, IsIdentifier name)
    (h' : ∀ name ∈ names', IsIdentifier name)
    (heq : (String.intercalate ", " names).toList ++ [')'] =
      (String.intercalate ", " names').toList ++ [')']) : names = names' := by
  -- a closing parenthesis is not the beginning of a name
  have hnil {name : String} {names : List String} (hname : IsIdentifier name)
      (heq : [')'] = (String.intercalate ", " (name :: names)).toList ++ [')']) : False := by
    rw [toList_intercalate_close, ← List.nil_append [')']] at heq
    obtain ⟨hempty, -⟩ := Text.append_inj_of_all (List.forall_mem_nil _) hname.all rfl
      (head_behindName names) heq
    exact hname.ne_nil hempty.symm
  cases names with
  | nil =>
      cases names' with
      | nil => rfl
      | cons name' names' => exact (hnil (h' name' List.mem_cons_self) heq).elim
  | cons name names =>
      cases names' with
      | nil => exact (hnil (h name List.mem_cons_self) heq.symm).elim
      | cons name' names' =>
          rw [toList_intercalate_close, toList_intercalate_close] at heq
          have heq : behindName (name :: names) = behindName (name' :: names') :=
            congrArg (',' :: ' ' :: ·) heq
          exact behindName_inj h h' heq

namespace Outline

/-- A tree with labels. -/
inductive RoseTree (α : Type)
  | node (label : α) (children : List (RoseTree α))

namespace RoseTree

variable {α : Type}

mutual

/-- The labels of a tree from the root on, with their depths. -/
def lines (depth : Nat) : RoseTree α → List (Nat × α)
  | node label children => (depth, label) :: linesOfAll (depth + 1) children

def linesOfAll (depth : Nat) : List (RoseTree α) → List (Nat × α)
  | [] => []
  | t :: ts => t.lines depth ++ linesOfAll depth ts

end

/-- Induction over trees in a row, the children of nodes included. -/
theorem induction_all {P : List (RoseTree α) → Prop} (nil : P [])
    (node : ∀ label children ts, P children → P ts → P (node label children :: ts)) :
    ∀ ts, P ts := by
  apply RoseTree.rec_1 (motive_1 := fun t => ∀ ts, P ts → P (t :: ts)) (motive_2 := P)
  · exact fun label children ih ts hts => node label children ts ih hts
  · exact nil
  · exact fun t ts iht ihts => iht ts ihts

/-- What follows trees of some depth lies less deep. -/
def EndsAbove (depth : Nat) (rest : List (Nat × α)) : Prop :=
  ∀ line ∈ rest.head?, line.1 < depth

/-- Depths tell where trees end. -/
theorem linesOfAll_append_inj {depth : Nat} {ts ts' : List (RoseTree α)}
    {rest rest' : List (Nat × α)} (hrest : EndsAbove depth rest) (hrest' : EndsAbove depth rest')
    (h : linesOfAll depth ts ++ rest = linesOfAll depth ts' ++ rest') :
    ts = ts' ∧ rest = rest' := by
  induction ts using induction_all generalizing depth ts' rest rest' with
  | nil =>
      cases ts' with
      | nil => exact ⟨rfl, h⟩
      | cons t ts' =>
          obtain ⟨label, children⟩ := t
          subst h
          exact absurd (hrest (depth, label) rfl) (Nat.lt_irrefl depth)
  | node label children ts ih ihts =>
      cases ts' with
      | nil =>
          subst h
          exact absurd (hrest' (depth, label) rfl) (Nat.lt_irrefl depth)
      | cons t ts' =>
          obtain ⟨label', children'⟩ := t
          simp only [linesOfAll, lines, List.cons_append, List.append_assoc, List.cons.injEq,
            Prod.mk.injEq, true_and] at h
          obtain ⟨rfl, h⟩ := h
          -- behind the children is a sibling of their parent or what follows the whole row
          have hbehind {ts : List (RoseTree α)} {rest : List (Nat × α)}
              (hrest : EndsAbove depth rest) :
              EndsAbove (depth + 1) (linesOfAll depth ts ++ rest) := by
            cases ts with
            | nil => exact fun line hline => Nat.lt_succ_of_lt (hrest line hline)
            | cons t ts =>
                obtain ⟨label, children⟩ := t
                intro line hline
                cases hline
                exact Nat.lt_succ_self depth
          obtain ⟨rfl, hlater⟩ := ih (hbehind hrest) (hbehind hrest') h
          obtain ⟨rfl, rfl⟩ := ihts hrest hrest' hlater
          exact ⟨rfl, rfl⟩

theorem linesOfAll_inj {depth : Nat} {ts ts' : List (RoseTree α)}
    (h : linesOfAll depth ts = linesOfAll depth ts') : ts = ts' := by
  have hnone : EndsAbove depth ([] : List (Nat × α)) := fun line hline => by cases hline
  exact (linesOfAll_append_inj hnone hnone (by rw [h])).1

end RoseTree

/-- What a line of an outline says. -/
inductive Label
  | number (value : Number)
  | named (name : String)
  | binary (op : BinaryOp)
  | call (callee : String)
  | define (name : String) (params : List String)
  | assign (target : String)
  | giveBack
  | eval

namespace Label

def text : Label → String
  | number value => "Number " ++ value.text
  | named name => "Var " ++ name
  | binary op => "Binary " ++ String.singleton op.symbol
  | call callee => "Call " ++ callee
  | define name params => "Def " ++ (name ++ "(" ++ String.intercalate ", " params ++ ")")
  | assign target => "Assign " ++ target
  | giveBack => "Return"
  | eval => "Expr"

/-- The letter that a label begins with, another one for each kind. -/
def initial : Label → Char
  | number _ => 'N'
  | named _ => 'V'
  | binary _ => 'B'
  | call _ => 'C'
  | define _ _ => 'D'
  | assign _ => 'A'
  | giveBack => 'R'
  | eval => 'E'

/-- Labels of programs that are read from texts. -/
def Plain : Label → Prop
  | number value => value.isFinite = true
  | named name | call name | assign name => IsIdentifier name
  | define name params => IsIdentifier name ∧ ∀ param ∈ params, IsIdentifier param
  | binary _ | giveBack | eval => True

variable {label label' : Label}

theorem exists_toList_text (label : Label) : ∃ rest, label.text.toList = label.initial :: rest := by
  cases label with
  | giveBack | eval => exact ⟨_, rfl⟩
  | _ => exact ⟨_, String.toList_append⟩

theorem initial_ne_blank (label : Label) : label.initial ≠ ' ' := by
  intro h
  cases label <;> cases h

theorem oneLine_text (h : label.Plain) : Text.OneLine label.text := by
  cases label with
  | number value => exact Text.oneLine_append.2 ⟨by decide, value.oneLine_text⟩
  | named name | call callee | assign target => exact Text.oneLine_append.2 ⟨by decide, h.oneLine⟩
  | binary op => cases op <;> decide
  | define name params =>
      have hseparator : Text.OneLine ", " := by decide
      have hparams := Text.oneLine_intercalate hseparator
        fun param hparam => (h.2 param hparam).oneLine
      simp only [text, Text.oneLine_append]
      exact ⟨by decide, ⟨⟨h.1.oneLine, by decide⟩, hparams⟩, by decide⟩
  | giveBack | eval => decide

theorem text_inj (h : label.Plain) (h' : label'.Plain) (heq : label.text = label'.text) :
    label = label' := by
  have hinitial : label.initial = label'.initial := by
    obtain ⟨rest, hrest⟩ := label.exists_toList_text
    obtain ⟨rest', hrest'⟩ := label'.exists_toList_text
    rw [heq, hrest'] at hrest
    exact (List.cons.inj hrest).1.symm
  cases label <;> cases label' <;> cases hinitial
  case number.number =>
    exact congrArg number (Number.text_inj h h' ((String.append_right_inj _).1 heq))
  case named.named => exact congrArg named ((String.append_right_inj _).1 heq)
  case call.call => exact congrArg call ((String.append_right_inj _).1 heq)
  case assign.assign => exact congrArg assign ((String.append_right_inj _).1 heq)
  case binary.binary =>
    have hsymbol := congrArg String.toList ((String.append_right_inj _).1 heq)
    simp only [String.toList_singleton, List.cons.injEq, and_true] at hsymbol
    exact congrArg binary (BinaryOp.symbol_injective hsymbol)
  case define.define name params name' params' =>
    have hchars := congrArg String.toList ((String.append_right_inj _).1 heq)
    simp only [String.toList_append, List.append_assoc] at hchars
    obtain ⟨hname, hrest⟩ := Text.append_inj_of_all h.1.all h'.1.all rfl rfl hchars
    rw [String.toList_injective hname, intercalate_inj h.2 h'.2 (List.append_cancel_left hrest)]
  case giveBack.giveBack => rfl
  case eval.eval => rfl

end Label

/-- The text of a line. -/
def shown (place : Nat × Label) : String := line place.1 place.2.text

section Shown

variable {place place' : Nat × Label}

theorem oneLine_shown (h : place.2.Plain) : Text.OneLine (shown place) := by
  refine Text.oneLine_append.2 ⟨Text.oneLine_ofList.2 fun hmem => ?_, Label.oneLine_text h⟩
  cases List.eq_of_mem_replicate hmem

theorem shown_inj (h : place.2.Plain) (h' : place'.2.Plain) (heq : shown place = shown place') :
    place = place' := by
  obtain ⟨rest, hrest⟩ := place.2.exists_toList_text
  obtain ⟨rest', hrest'⟩ := place'.2.exists_toList_text
  obtain ⟨hdepth, htext⟩ := Text.indented_inj (by omega) hrest hrest' place.2.initial_ne_blank
    place'.2.initial_ne_blank heq
  exact Prod.ext hdepth (Label.text_inj h h' htext)

theorem map_shown_inj {places places' : List (Nat × Label)}
    (h : ∀ place ∈ places, place.2.Plain) (h' : ∀ place ∈ places', place.2.Plain)
    (heq : places.map shown = places'.map shown) : places = places' := by
  induction places generalizing places' with
  | nil => exact (List.map_eq_nil_iff.1 heq.symm).symm
  | cons place places ih =>
      cases places' with
      | nil => cases heq
      | cons place' places' =>
          obtain ⟨hfirst, hrest⟩ := List.cons.inj heq
          obtain ⟨hplace, hplaces⟩ := List.forall_mem_cons.1 h
          obtain ⟨hplace', hplaces'⟩ := List.forall_mem_cons.1 h'
          rw [shown_inj hplace hplace' hfirst, ih hplaces hplaces' hrest]

end Shown

end Outline

open Outline (RoseTree Label)

mutual

def Expr.tree : Expr → RoseTree Label
  | .number value => .node (.number value) []
  | .variable name => .node (.named name.val) []
  | .binary op lhs rhs => .node (.binary op) [lhs.tree, rhs.tree]
  | .call callee args => .node (.call callee.val) (Expr.trees args)

def Expr.trees : List Expr → List (RoseTree Label)
  | [] => []
  | e :: es => e.tree :: Expr.trees es

end

mutual

def Stmt.tree : Stmt → RoseTree Label
  | .define name params body =>
    .node (.define name.val (params.map (·.val))) (Stmt.trees body)
  | .assign target value => .node (.assign target.val) [value.tree]
  | .giveBack value _ => .node .giveBack [value.tree]
  | .eval value => .node .eval [value.tree]

def Stmt.trees : List Stmt → List (RoseTree Label)
  | [] => []
  | s :: ss => s.tree :: Stmt.trees ss

end

/-- The name, at no place. -/
def Ident.ofName (name : String) : Ident := ⟨name, 0, 0⟩

mutual

/-- The expression with such a tree, at no place. -/
def Expr.ofTree? : RoseTree Label → Option Expr
  | .node (.number value) [] => some (.number value)
  | .node (.named name) [] => some (.variable (.ofName name))
  | .node (.binary op) [lhs, rhs] => do
    let lhs ← Expr.ofTree? lhs
    let rhs ← Expr.ofTree? rhs
    some (.binary op lhs rhs)
  | .node (.call callee) args => do
    let args ← Expr.ofTrees? args
    some (.call (.ofName callee) args)
  | _ => none

def Expr.ofTrees? : List (RoseTree Label) → Option (List Expr)
  | [] => some []
  | t :: ts => do
    let e ← Expr.ofTree? t
    let es ← Expr.ofTrees? ts
    some (e :: es)

end

mutual

/-- The statement with such a tree, at no place. -/
def Stmt.ofTree? : RoseTree Label → Option Stmt
  | .node (.define name params) body => do
    let body ← Stmt.ofTrees? body
    some (.define (.ofName name) (params.map .ofName) body)
  | .node (.assign target) [value] => do
    let value ← Expr.ofTree? value
    some (.assign (.ofName target) value)
  | .node .giveBack [value] => do
    let value ← Expr.ofTree? value
    some (.giveBack value ⟨0, 0⟩)
  | .node .eval [value] => do
    let value ← Expr.ofTree? value
    some (.eval value)
  | _ => none

def Stmt.ofTrees? : List (RoseTree Label) → Option (List Stmt)
  | [] => some []
  | t :: ts => do
    let s ← Stmt.ofTree? t
    let ss ← Stmt.ofTrees? ts
    some (s :: ss)

end

section Trees

theorem Expr.ofTree?_tree (e : Expr) : Expr.ofTree? e.tree = some e.unplaced := by
  induction e using Expr.induction_args with
  | number value | var name => rfl
  | binary op lhs rhs ihl ihr =>
      rw [tree, ofTree?, ihl, ihr]
      rfl
  | call callee args ih =>
      have hargs : Expr.ofTrees? (Expr.trees args) = some (Expr.unplacedAll args) := by
        induction args with
        | nil => rfl
        | cons e es ihes =>
            obtain ⟨he, hes⟩ := List.forall_mem_cons.1 ih
            rw [trees, ofTrees?, he, ihes hes]
            rfl
      rw [tree, ofTree?, hargs]
      rfl

/-- The trees of statements tell all but the spans. -/
theorem Stmt.ofTrees?_trees (ss : List Stmt) :
    Stmt.ofTrees? (Stmt.trees ss) = some (Stmt.unplacedAll ss) := by
  induction ss using Stmt.induction_all with
  | nil => rfl
  | define name params body ss ihbody ih =>
      rw [trees, tree, ofTrees?, ofTree?, ihbody, ih, unplacedAll, unplaced, List.map_map]
      rfl
  | assign target value ss ih | giveBack value span ss ih | eval value ss ih =>
      rw [trees, tree, ofTrees?, ofTree?, value.ofTree?_tree, ih]
      rfl

theorem Expr.tree_unplaced (e : Expr) : e.unplaced.tree = e.tree := by
  induction e using Expr.induction_args with
  | number value | var name => rfl
  | binary op lhs rhs ihl ihr => rw [unplaced, tree, tree, ihl, ihr]
  | call callee args ih =>
      have hargs : Expr.trees (Expr.unplacedAll args) = Expr.trees args := by
        induction args with
        | nil => rfl
        | cons e es ihes =>
            obtain ⟨he, hes⟩ := List.forall_mem_cons.1 ih
            rw [unplacedAll, trees, trees, he, ihes hes]
      rw [unplaced, tree, tree, hargs]
      rfl

theorem Stmt.trees_unplacedAll (ss : List Stmt) :
    Stmt.trees (Stmt.unplacedAll ss) = Stmt.trees ss := by
  induction ss using Stmt.induction_all with
  | nil => rfl
  | define name params body ss ihbody ih =>
      rw [unplacedAll, unplaced, trees, trees, tree, tree, ihbody, ih, List.map_map]
      rfl
  | assign target value ss ih =>
      rw [unplacedAll, unplaced, trees, trees, tree, tree, value.tree_unplaced, ih]
      rfl
  | giveBack value span ss ih | eval value ss ih =>
      rw [unplacedAll, unplaced, trees, trees, tree, tree, value.tree_unplaced, ih]

end Trees

namespace Outline

theorem expression_eq (depth : Nat) (e : Expr) :
    expression depth e = (e.tree.lines depth).map shown := by
  induction e using Expr.induction_args generalizing depth with
  | number value | var name => rfl
  | binary op lhs rhs ihl ihr =>
      rw [expression, ihl, ihr]
      simp [Expr.tree, RoseTree.lines, RoseTree.linesOfAll, shown, Label.text]
  | call callee args ih =>
      have hargs : expressions (depth + 1) args =
          (RoseTree.linesOfAll (depth + 1) (Expr.trees args)).map shown := by
        induction args with
        | nil => rfl
        | cons e es ihes =>
            obtain ⟨he, hes⟩ := List.forall_mem_cons.1 ih
            rw [expressions, he, ihes hes, Expr.trees, RoseTree.linesOfAll, List.map_append]
      rw [expression, hargs]
      rfl

theorem statements_eq (depth : Nat) (ss : List Stmt) :
    statements depth ss = (RoseTree.linesOfAll depth (Stmt.trees ss)).map shown := by
  induction ss using Stmt.induction_all generalizing depth with
  | nil => rfl
  | define name params body ss ihbody ih =>
      rw [statements, statement, ihbody, ih, Stmt.trees, Stmt.tree, RoseTree.linesOfAll,
        RoseTree.lines, List.map_append]
      rfl
  | assign target value ss ih | giveBack value span ss ih | eval value ss ih =>
      rw [statements, statement, expression_eq, ih, Stmt.trees, Stmt.tree, RoseTree.linesOfAll,
        RoseTree.lines, List.map_append, RoseTree.linesOfAll, RoseTree.linesOfAll, List.append_nil]
      rfl

section Plain

variable {depth : Nat}

theorem plain_of_mem_lines {e : Expr}
    (h : e.Over IsIdentifier (fun value => value.isFinite = true)) :
    ∀ place ∈ e.tree.lines depth, place.2.Plain := by
  induction e using Expr.induction_args generalizing depth with
  | number value | var name => exact List.forall_mem_singleton.2 h
  | binary op lhs rhs ihl ihr =>
      refine List.forall_mem_cons.2 ⟨trivial, List.forall_mem_append.2 ⟨ihl h.1, ?_⟩⟩
      exact List.forall_mem_append.2 ⟨ihr h.2, List.forall_mem_nil _⟩
  | call callee args ih =>
      refine List.forall_mem_cons.2 ⟨h.1, ?_⟩
      have hargs := h.2
      clear h
      induction args with
      | nil => exact List.forall_mem_nil _
      | cons e es ihes =>
          obtain ⟨he, hes⟩ := List.forall_mem_cons.1 ih
          exact List.forall_mem_append.2 ⟨he hargs.1, ihes hes hargs.2⟩

theorem plain_of_mem_linesOfAll {ss : List Stmt}
    (h : Stmt.AllOver IsIdentifier (fun value => value.isFinite = true) ss) :
    ∀ place ∈ RoseTree.linesOfAll depth (Stmt.trees ss), place.2.Plain := by
  induction ss using Stmt.induction_all generalizing depth with
  | nil => exact List.forall_mem_nil _
  | define name params body ss ihbody ih =>
      obtain ⟨⟨hname, hparams, hbody⟩, hss⟩ := h
      refine List.forall_mem_append.2 ⟨List.forall_mem_cons.2 ⟨⟨hname, ?_⟩, ihbody hbody⟩, ih hss⟩
      exact List.forall_mem_map.2 hparams
  | assign target value ss ih =>
      refine List.forall_mem_append.2 ⟨List.forall_mem_cons.2 ⟨h.1.1, ?_⟩, ih h.2⟩
      exact List.forall_mem_append.2 ⟨plain_of_mem_lines h.1.2, List.forall_mem_nil _⟩
  | giveBack value span ss ih | eval value ss ih =>
      refine List.forall_mem_append.2 ⟨List.forall_mem_cons.2 ⟨trivial, ?_⟩, ih h.2⟩
      exact List.forall_mem_append.2 ⟨plain_of_mem_lines h.1, List.forall_mem_nil _⟩

end Plain

end Outline

theorem Program.unplaced_eq_of_outline {program program' : Program}
    (h : program.Over IsIdentifier (fun value => value.isFinite = true))
    (h' : program'.Over IsIdentifier (fun value => value.isFinite = true))
    (heq : program.outline = program'.outline) : program.unplaced = program'.unplaced := by
  have hplain : ∀ place ∈ RoseTree.linesOfAll 0 (Stmt.trees program), place.2.Plain :=
    Outline.plain_of_mem_linesOfAll h
  have hplain' : ∀ place ∈ RoseTree.linesOfAll 0 (Stmt.trees program'), place.2.Plain :=
    Outline.plain_of_mem_linesOfAll h'
  rw [outline, outline, Outline.statements_eq, Outline.statements_eq] at heq
  have hshown := Text.unlines_inj
    (List.forall_mem_map.2 fun place hplace => Outline.oneLine_shown (hplain place hplace))
    (List.forall_mem_map.2 fun place hplace => Outline.oneLine_shown (hplain' place hplace)) heq
  have htrees := RoseTree.linesOfAll_inj (Outline.map_shown_inj hplain hplain' hshown)
  have hread := Stmt.ofTrees?_trees program
  rw [htrees, Stmt.ofTrees?_trees] at hread
  exact (Option.some.inj hread).symm

theorem Program.outline_unplaced (program : Program) :
    program.unplaced.outline = program.outline := by
  rw [outline, outline, Outline.statements_eq, Outline.statements_eq, unplaced,
    Stmt.trees_unplacedAll]

/-- Programs that are read from texts have one outline exactly if they are the same but for their
spans. -/
theorem Program.outline_eq_iff {source source' : String} {program program' : Program}
    (h : Toolchain.parse source = .ok program) (h' : Toolchain.parse source' = .ok program') :
    program.outline = program'.outline ↔ program.unplaced = program'.unplaced := by
  constructor
  · exact unplaced_eq_of_outline (Toolchain.over_of_parse h) (Toolchain.over_of_parse h')
  · intro hsame
    rw [← program.outline_unplaced, hsame, program'.outline_unplaced]

/-- A call behind a definition, and the same without a blank and in parentheses. -/
def spacedCall : String := "def f(a, b) \x7b return a + 2; \x7d f(1, 2 * 3);"

def tightCall : String := "def f(a,b)\x7breturn(a+2);\x7d((f(1,(2*3))));"

theorem spaced_and_tight_call_outlined : ∃ program program',
    Toolchain.parse spacedCall = .ok program ∧ Toolchain.parse tightCall = .ok program' ∧
    program.outline = program'.outline ∧ program.unplaced = program'.unplaced := by
  have hrun : ((Toolchain.parse spacedCall).toOption.any fun program =>
      (Toolchain.parse tightCall).toOption.any fun program' =>
        decide (program.outline = program'.outline)) = true := by decide +kernel
  obtain ⟨program, h, hany⟩ := exists_of_any hrun
  obtain ⟨program', h', hsame⟩ := exists_of_any hany
  have hsame := of_decide_eq_true hsame
  exact ⟨program, program', h, h', hsame, (Program.outline_eq_iff h h').1 hsame⟩

end Source

end StackCalc
