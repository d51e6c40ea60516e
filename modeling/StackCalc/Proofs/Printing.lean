import StackCalc.Proofs.Acceptance
import StackCalc.Proofs.Definitions
import StackCalc.Proofs.PrintedWords
import StackCalc.Source.Printer
import StackCalc.Toolchain

/-!
# Printed programs

The text of a program is read as tokens that the grammar derives, and the tree of the derivation
is the program but for where its names were written. An expression is printed as a factor, whose
nesting is counted on the expression; it is at most the height of the expression.
-/

open StackCalc.Source.Parser StackCalc.Source.Lexer

namespace StackCalc.Source

/-- The name, wherever it was written. -/
def Ident.unplaced (name : Ident) : Ident := ⟨name.val, 0, 0⟩

mutual

def Expr.unplaced : Expr → Expr
  | .number value => .number value
  | .variable name => .variable name.unplaced
  | .binary op lhs rhs => .binary op lhs.unplaced rhs.unplaced
  | .call callee args => .call callee.unplaced (Expr.unplacedAll args)

def Expr.unplacedAll : List Expr → List Expr
  | [] => []
  | e :: es => e.unplaced :: Expr.unplacedAll es

end

mutual

def Stmt.unplaced : Stmt → Stmt
  | .define name params body =>
    .define name.unplaced (params.map Ident.unplaced) (Stmt.unplacedAll body)
  | .assign target value => .assign target.unplaced value.unplaced
  | .giveBack value _ => .giveBack value.unplaced ⟨0, 0⟩
  | .eval value => .eval value.unplaced

def Stmt.unplacedAll : List Stmt → List Stmt
  | [] => []
  | s :: ss => s.unplaced :: Stmt.unplacedAll ss

end

/-- The program without its spans. -/
def Program.unplaced (program : Program) : Program := Stmt.unplacedAll program

mutual

/-- Inside `depth` definitions, no further one is too deep, and no expression too high for it. -/
def Stmt.Shallow (depth : Nat) : Stmt → Prop
  | .define _ _ body => depth + 1 ≤ maxNesting ∧ Stmt.AllShallow (depth + 1) body
  | .assign _ value | .giveBack value _ | .eval value => depth + value.height ≤ maxNesting

def Stmt.AllShallow (depth : Nat) : List Stmt → Prop
  | [] => True
  | s :: ss => s.Shallow depth ∧ Stmt.AllShallow depth ss

end

/-- Definitions and the heights of the expressions in them do not exceed the limit together. -/
def Program.Shallow (program : Program) : Prop := Stmt.AllShallow 0 program

mutual

/-- How many parentheses are in one another where the expression is printed. -/
def Expr.enclosures : Expr → Nat
  | .number _ | .variable _ => 0
  | .binary _ lhs rhs => max lhs.enclosures rhs.enclosures + 1
  | .call _ args => Expr.enclosuresOfAll args + 1

def Expr.enclosuresOfAll : List Expr → Nat
  | [] => 0
  | e :: es => max e.enclosures (Expr.enclosuresOfAll es)

end

mutual

/-- How many definitions and parentheses are in one another where the statement is printed. -/
def Stmt.enclosures : Stmt → Nat
  | .define _ _ body => Stmt.enclosuresOfAll body + 1
  | .assign _ value | .giveBack value _ | .eval value => value.enclosures

def Stmt.enclosuresOfAll : List Stmt → Nat
  | [] => 0
  | s :: ss => max s.enclosures (Stmt.enclosuresOfAll ss)

end

def Program.enclosures (program : Program) : Nat := Stmt.enclosuresOfAll program

section Heights

theorem Expr.height_unplaced (e : Expr) : e.unplaced.height = e.height := by
  induction e using Expr.induction_args with
  | number value => rfl
  | var name => rfl
  | binary op lhs rhs ihl ihr => simp only [unplaced, height, ihl, ihr]
  | call callee args ih =>
      have hargs : Expr.heightOfAll (Expr.unplacedAll args) = Expr.heightOfAll args := by
        induction args with
        | nil => rfl
        | cons e es ihes =>
            rw [List.forall_mem_cons] at ih
            simp only [unplacedAll, heightOfAll, ih.1, ihes ih.2]
      simp only [unplaced, height, hargs]

theorem Stmt.heights_unplacedAll (ss : List Stmt) :
    (Stmt.expressionsOfAll (Stmt.unplacedAll ss)).map Expr.height =
      (Stmt.expressionsOfAll ss).map Expr.height := by
  induction ss using Stmt.induction_all with
  | nil => rfl
  | define name params body ss ih ih' =>
      simp only [unplacedAll, unplaced, expressionsOfAll, expressions, List.map_append, ih, ih']
  | assign target value ss ih | giveBack value span ss ih | eval value ss ih =>
      simp only [unplacedAll, unplaced, expressionsOfAll, expressions, List.map_append, ih,
        List.map_cons, value.height_unplaced]

theorem Stmt.height_le_of_shallow {depth : Nat} {ss : List Stmt} (h : Stmt.AllShallow depth ss) :
    ∀ e ∈ Stmt.expressionsOfAll ss, e.height ≤ maxNesting := by
  induction ss using Stmt.induction_all generalizing depth with
  | nil => exact List.forall_mem_nil _
  | define name params body ss ih ih' =>
      exact List.forall_mem_append.2 ⟨ih h.1.2, ih' h.2⟩
  | assign target value ss ih | giveBack value span ss ih | eval value ss ih =>
      refine List.forall_mem_append.2 ⟨List.forall_mem_singleton.2 ?_, ih h.2⟩
      exact Nat.le_trans (Nat.le_add_left _ _) h.1

theorem Expr.enclosures_le_height (e : Expr) : e.enclosures ≤ e.height := by
  induction e using Expr.induction_args with
  | number value | var name => exact Nat.zero_le _
  | binary op lhs rhs ihl ihr =>
      rw [enclosures, height]
      omega
  | call callee args ih =>
      have hargs : Expr.enclosuresOfAll args ≤ Expr.heightOfAll args := by
        induction args with
        | nil => exact Nat.le_refl _
        | cons e es ihes =>
            obtain ⟨he, hes⟩ := List.forall_mem_cons.1 ih
            have := ihes hes
            rw [enclosuresOfAll, heightOfAll]
            omega
      exact Nat.succ_le_succ hargs

theorem Stmt.enclosures_le_of_shallow {depth : Nat} {ss : List Stmt}
    (h : Stmt.AllShallow depth ss) : Stmt.enclosuresOfAll ss ≤ maxNesting - depth := by
  induction ss using Stmt.induction_all generalizing depth with
  | nil => exact Nat.zero_le _
  | define name params body ss ih ih' =>
      obtain ⟨⟨hdepth, hbody⟩, hss⟩ := h
      have := ih hbody
      have := ih' hss
      rw [enclosuresOfAll, enclosures]
      omega
  | assign target value ss ih | giveBack value span ss ih | eval value ss ih =>
      have hvalue := Nat.le_trans (Nat.add_le_add_left value.enclosures_le_height depth) h.1
      have := ih h.2
      rw [enclosuresOfAll, enclosures]
      omega

end Heights

/-- The tokens of a derivation whose tree is seen as `x`, nested no deeper than the limit. -/
def Nonterminal.Shows {α : Type} (N : Nonterminal) (view : N.Tree → α) (x : α) (limit : Nat)
    (toks : Tokens) : Prop :=
  ∃ d : Derivation N, toks = d.tokens ∧ view d.tree = x ∧ d.nesting ≤ limit

/-- There is no negation in the derivation. -/
def Derivation.Plain {N : Nonterminal} : Derivation N → Prop
  | negation _ _ => False
  | done | noNames | lastName _ | number _ _ | named _ | noSums => True
  | next first later => first.Plain ∧ later.Plain
  | defining d => d.Plain
  | returning _ value _ => value.Plain
  | assigning _ _ value _ => value.Plain
  | evaluating value _ => value.Plain
  | definition _ _ _ params _ _ body _ => params.Plain ∧ body.Plain
  | someNames names => names.Plain
  | moreNames _ _ later => later.Plain
  | single x => x.Plain
  | operation lhs _ _ _ rhs => lhs.Plain ∧ rhs.Plain
  | calling d => d.Plain
  | grouping _ inner _ => inner.Plain
  | call _ _ args _ => args.Plain
  | someSums sums => sums.Plain
  | lastSum x => x.Plain
  | moreSums x _ later => x.Plain ∧ later.Plain

/-- The tokens of a derivation whose tree is seen as `x`, nested as deep as `nesting` says, and by
definitions and parentheses only. -/
def Nonterminal.Nests {α : Type} (N : Nonterminal) (view : N.Tree → α) (x : α) (nesting : Nat)
    (toks : Tokens) : Prop :=
  ∃ d : Derivation N, toks = d.tokens ∧ view d.tree = x ∧ d.nesting = nesting ∧ d.Plain

/-- The text is read as tokens of a kind, wherever it stands in front of something separate. -/
def LexedAs (text : String) (kind : Tokens → Prop) : Prop :=
  ∀ start rest, separates rest = true →
    ∃ toks stop, Lexes start text.toList toks stop rest ∧ kind toks

section Items

variable {α : Type} {text : α → String} {kind : α → Tokens → Prop}

theorem lexedAs_intercalate (kind' : List α → Tokens → Prop)
    (hlast : ∀ {x toks}, kind x toks → kind' [x] toks)
    (hmore : ∀ {x toks xs later} (comma : Span), kind x toks → kind' xs later →
      kind' (x :: xs) (toks ++ Symbol.comma.at comma :: later)) {xs : List α} (hne : xs ≠ [])
    (h : ∀ x ∈ xs, LexedAs (text x) (kind x)) :
    LexedAs (String.intercalate ", " (xs.map text)) (kind' xs) := by
  induction xs with
  | nil => exact absurd rfl hne
  | cons x xs ih =>
      obtain ⟨hx, hxs⟩ := List.forall_mem_cons.1 h
      intro start rest hrest
      by_cases hnil : xs = []
      · subst hnil
        obtain ⟨toks, stop, htoks, hkind⟩ := hx start rest hrest
        exact ⟨toks, stop, by simpa using htoks, hlast hkind⟩
      · let behind := (String.intercalate ", " (xs.map text)).toList ++ rest
        obtain ⟨toks, mid, htoks, hkind⟩ := hx start ([',', ' '] ++ behind) rfl
        obtain ⟨comma, mid', hcomma⟩ := lexes_symbol mid behind [] .comma [' '] rfl rfl
        obtain ⟨later, stop, hlater, hkind'⟩ := ih hnil hxs mid' rest hrest
        refine ⟨_, stop, ?_, hmore comma hkind hkind'⟩
        have htext : (String.intercalate ", " ((x :: xs).map text)).toList =
            (text x).toList ++ [',', ' '] ++ (String.intercalate ", " (xs.map text)).toList := by
          rw [List.map_cons, String.intercalate_cons_of_ne_nil (by simpa using hnil)]
          simp
        exact ((htoks.append hcomma).append hlater).cast htext (List.append_cons _ _ _)

/-- A name and items in parentheses behind it. -/
theorem lexes_signature {name items : String} {kind : Tokens → Prop} (start : Nat)
    (rest before : List Char) (hbefore : before.all Text.isBlank = true)
    (hname : IsPlainName name) (hitems : LexedAs items kind) :
    ∃ span leftParen toks rightParen stop,
      Lexes start (before ++ (name ++ "(" ++ items ++ ")").toList) (⟨.identifier name, span⟩ ::
        Symbol.leftParen.at leftParen :: (toks ++ [Symbol.rightParen.at rightParen])) stop rest ∧
      kind toks := by
  let behind := items.toList ++ ([')'] ++ rest)
  obtain ⟨span, p₁, h₁⟩ := lexes_identifier start (['('] ++ behind) before hbefore hname rfl
  obtain ⟨leftParen, p₂, h₂⟩ := lexes_symbol p₁ behind [] .leftParen [] rfl rfl
  obtain ⟨toks, p₃, h₃, hkind⟩ := hitems p₂ ([')'] ++ rest) rfl
  obtain ⟨rightParen, p₄, h₄⟩ := lexes_symbol p₃ rest [] .rightParen [] rfl rfl
  refine ⟨span, leftParen, toks, rightParen, p₄, ?_, hkind⟩
  refine (((h₁.append h₂).append h₃).append h₄).cast ?_ ?_
  · simp
  · simp

theorem lexedAs_empty {kind : Tokens → Prop} (h : kind []) : LexedAs "" kind := by
  intro start rest _
  obtain ⟨stop, hnone⟩ := lexes_blanks start rest [] rfl
  exact ⟨[], stop, hnone, h⟩

end Items

section Expressions

/-- How an expression is printed: as the tokens of a factor. -/
abbrev Expr.Shown (e : Expr) : Tokens → Prop :=
  Nonterminal.factor.Nests Expr.unplaced e.unplaced e.enclosures

/-- An operator between two factors makes a sum, whatever its rank. -/
theorem exists_operation (lhs rhs : Derivation .factor) (op : BinaryOp) (place : Span) :
    ∃ d : Derivation .sum, d.tokens = lhs.tokens ++ (Symbol.operator op).at place :: rhs.tokens ∧
      d.tree = .binary op lhs.tree rhs.tree ∧ d.nesting = max lhs.nesting rhs.nesting ∧
      (lhs.Plain → rhs.Plain → d.Plain) := by
  let left : Derivation (.expression (.chain .multiplicative)) := .single lhs
  let right : Derivation (.expression (.chain .multiplicative)) := .single rhs
  by_cases hop : op ∈ Rank.additive.operators
  · exact ⟨.operation (.single left) op hop place right, rfl, rfl, rfl, And.intro⟩
  · have hop' : op ∈ Rank.multiplicative.operators := by
      cases op with
      | add | sub => exact absurd (by simp [Rank.operators]) hop
      | mul | div => simp [Rank.operators]
    let product : Derivation (.expression (.chain .multiplicative)) :=
      .operation left op hop' place rhs
    exact ⟨.single product, rfl, rfl, rfl, And.intro⟩

theorem lexedAs_binary {op : BinaryOp} {lhs rhs : Expr} (hl : LexedAs lhs.text lhs.Shown)
    (hr : LexedAs rhs.text rhs.Shown) :
    LexedAs (Expr.binary op lhs rhs).text (Expr.binary op lhs rhs).Shown := by
  intro start rest hrest
  let close := [')'] ++ rest
  let operator := [' '] ++ op.symbol :: [' '] ++ (rhs.text.toList ++ close)
  obtain ⟨leftParen, p₁, h₁⟩ := lexes_symbol start (lhs.text.toList ++ operator) [] .leftParen []
    rfl rfl
  obtain ⟨_, p₂, h₂, l, rfl, htree, hnesting, hplain⟩ := hl p₁ operator rfl
  obtain ⟨place, p₃, h₃⟩ := lexes_symbol p₂ (rhs.text.toList ++ close) [' '] (.operator op) [' ']
    rfl rfl
  obtain ⟨_, p₄, h₄, r, rfl, htree', hnesting', hplain'⟩ := hr p₃ close rfl
  obtain ⟨rightParen, p₅, h₅⟩ := lexes_symbol p₄ rest [] .rightParen [] rfl rfl
  obtain ⟨d, htokens, hsum, hdepth, hinner⟩ := exists_operation l r op place
  refine ⟨_, p₅, ?_, .grouping leftParen d rightParen, rfl, ?_, ?_, hinner hplain hplain'⟩
  · refine ((((h₁.append h₂).append h₃).append h₄).append h₅).cast ?_ ?_
    · simp [Expr.text, Symbol.char]
    · simp [Derivation.tokens, htokens]
  · rw [Derivation.tree, hsum, Expr.unplaced, Expr.unplaced, htree, htree']
  · rw [Derivation.nesting, hdepth, Expr.enclosures, hnesting, hnesting']

theorem Expr.texts_eq_map (es : List Expr) : Expr.texts es = es.map Expr.text := by
  induction es with
  | nil => rfl
  | cons e es ih => rw [texts, ih, List.map_cons]

/-- A factor where the grammar has a sum. -/
theorem exists_sum (x : Derivation .factor) : ∃ d : Derivation .sum, d.tokens = x.tokens ∧
    d.tree = x.tree ∧ d.nesting = x.nesting ∧ (x.Plain → d.Plain) := by
  let product : Derivation (.expression (.chain .multiplicative)) := .single x
  exact ⟨.single product, rfl, rfl, rfl, id⟩

theorem lexedAs_sums {es : List Expr} (hne : es ≠ []) (h : ∀ e ∈ es, LexedAs e.text e.Shown) :
    LexedAs (String.intercalate ", " (es.map Expr.text)) (Nonterminal.sums.Nests
      Expr.unplacedAll (Expr.unplacedAll es) (Expr.enclosuresOfAll es)) := by
  refine lexedAs_intercalate (fun es => Nonterminal.sums.Nests Expr.unplacedAll
    (Expr.unplacedAll es) (Expr.enclosuresOfAll es)) ?_ ?_ hne h
  · rintro e _ ⟨x, rfl, htree, hnesting, hplain⟩
    obtain ⟨d, htokens, hsum, hdepth, hd⟩ := exists_sum x
    refine ⟨.lastSum d, htokens.symm, ?_, ?_, hd hplain⟩
    · simp only [Derivation.tree, hsum, Expr.unplacedAll, htree]
    · simp only [Derivation.nesting, hdepth, hnesting, Expr.enclosuresOfAll, Nat.max_zero]
  · rintro e _ es _ comma ⟨x, rfl, htree, hnesting, hplain⟩
      ⟨later, rfl, htree', hnesting', hplain'⟩
    obtain ⟨d, htokens, hsum, hdepth, hd⟩ := exists_sum x
    refine ⟨.moreSums d comma later, ?_, ?_, ?_, hd hplain, hplain'⟩
    · rw [Derivation.tokens, htokens]
    · rw [Derivation.tree, hsum, Expr.unplacedAll, Expr.unplacedAll, htree, htree']
    · rw [Derivation.nesting, hdepth, Expr.enclosuresOfAll, hnesting, hnesting']

theorem lexedAs_arguments {es : List Expr} (h : ∀ e ∈ es, LexedAs e.text e.Shown) :
    LexedAs (String.intercalate ", " (es.map Expr.text)) (Nonterminal.arguments.Nests
      Expr.unplacedAll (Expr.unplacedAll es) (Expr.enclosuresOfAll es)) := by
  by_cases hne : es = []
  · subst hne
    exact lexedAs_empty ⟨.noSums, rfl, rfl, rfl, trivial⟩
  · intro start rest hrest
    obtain ⟨_, stop, hlexes, d, rfl, hd⟩ := lexedAs_sums hne h start rest hrest
    exact ⟨_, stop, hlexes, .someSums d, rfl, hd⟩

theorem lexedAs_call {callee : Ident} {args : List Expr} (hcallee : IsPlainName callee.val)
    (h : ∀ e ∈ args, LexedAs e.text e.Shown) :
    LexedAs (Expr.call callee args).text (Expr.call callee args).Shown := by
  intro start rest _
  obtain ⟨span, leftParen, _, rightParen, stop, hlexes, d, rfl, htree, hnesting, hplain⟩ :=
    lexes_signature start rest [] rfl hcallee (lexedAs_arguments h)
  refine ⟨_, stop, ?_, .calling (.call ⟨callee.val, span⟩ leftParen d rightParen), rfl, ?_, ?_,
    hplain⟩
  · rw [Expr.text, Expr.texts_eq_map]
    exact hlexes
  · rw [Derivation.tree, Derivation.tree, Expr.unplaced, Expr.unplaced, htree]
    rfl
  · exact congrArg Nat.succ hnesting

theorem Expr.lexedAs_text {e : Expr} (h : e.Over IsPlainName IsUnsigned) :
    LexedAs e.text e.Shown := by
  induction e using Expr.induction_args with
  | number value =>
      intro start rest hrest
      obtain ⟨span, stop, hnumber⟩ := lexes_number start h hrest
      refine ⟨_, stop, hnumber.cast ?_ rfl, .number value span, rfl, rfl, rfl, trivial⟩
      simp [text, Number.text]
  | var name =>
      intro start rest hrest
      obtain ⟨span, stop, hname⟩ := lexes_identifier start rest [] rfl h hrest
      exact ⟨_, stop, hname, .named ⟨name.val, span⟩, rfl, rfl, rfl, trivial⟩
  | binary op lhs rhs ihl ihr => exact lexedAs_binary (ihl h.1) (ihr h.2)
  | call callee args ih =>
      exact lexedAs_call h.1 fun e he => ih e he (Expr.allOver_iff.1 h.2 e he)

end Expressions

section Statements

/-- The lines are read as tokens of a kind, wherever they stand. -/
def LexedLines (lines : List String) (kind : Tokens → Prop) : Prop :=
  ∀ start rest, ∃ toks stop, Lexes start (Text.unlines lines).toList toks stop rest ∧ kind toks

/-- How a statement is printed. -/
abbrev Stmt.Shown (s : Stmt) : Tokens → Prop :=
  Nonterminal.statement.Nests Stmt.unplaced s.unplaced s.enclosures

abbrev Stmt.AllNested (ss : List Stmt) : Tokens → Prop :=
  Nonterminal.program.Nests Stmt.unplacedAll (Stmt.unplacedAll ss) (Stmt.enclosuresOfAll ss)

/-- How statements inside `depth` definitions are printed if they are not too deep. -/
abbrev Stmt.AllShown (depth : Nat) (ss : List Stmt) : Tokens → Prop :=
  Nonterminal.program.Shows Stmt.unplacedAll (Stmt.unplacedAll ss) (maxNesting - depth)

theorem unlines_nil : Text.unlines [] = "" := rfl

theorem toList_unlines_append (lines lines' : List String) :
    (Text.unlines (lines ++ lines')).toList =
      (Text.unlines lines).toList ++ (Text.unlines lines').toList := by
  simp [Text.unlines]

theorem toList_unlines_line (depth : Nat) (text : String) (lines : List String) :
    (Text.unlines (Printer.line depth text :: lines)).toList =
      List.replicate (4 * depth) ' ' ++ text.toList ++ ['\n'] ++ (Text.unlines lines).toList := by
  simp [Text.unlines, Printer.line, Text.indented]

theorem isBlank_indent (depth : Nat) :
    (List.replicate (4 * depth) ' ').all Text.isBlank = true := by
  rw [List.all_replicate]
  split <;> rfl

/-- An expression up to the end of its line. -/
theorem lexes_value {value : Expr} (h : value.Over IsPlainName IsUnsigned) (start : Nat)
    (rest : List Char) : ∃ (d : Derivation .sum) (semicolon : Span) (stop : Nat),
      Lexes start (value.text.toList ++ [';', '\n'])
        (d.tokens ++ [Symbol.semicolon.at semicolon]) stop rest ∧
      d.tree.unplaced = value.unplaced ∧ d.nesting = value.enclosures ∧ d.Plain := by
  obtain ⟨_, mid, hvalue, x, rfl, htree, hnesting, hplain⟩ :=
    Expr.lexedAs_text h start ([';', '\n'] ++ rest) rfl
  obtain ⟨semicolon, stop, hsemicolon⟩ := lexes_symbol mid rest [] .semicolon ['\n'] rfl rfl
  obtain ⟨d, htokens, hsum, hdepth, hd⟩ := exists_sum x
  exact ⟨d, semicolon, stop, htokens ▸ hvalue.append hsemicolon, hsum ▸ htree, hdepth ▸ hnesting,
    hd hplain⟩

variable {depth : Nat} {value : Expr}

theorem lexedLines_assign {target : Ident} (htarget : IsPlainName target.val)
    (hvalue : value.Over IsPlainName IsUnsigned) :
    LexedLines (Printer.statement depth (.assign target value))
      (Stmt.Shown (.assign target value)) := by
  intro start rest
  let behind := value.text.toList ++ [';', '\n'] ++ rest
  obtain ⟨span, p₁, h₁⟩ := lexes_identifier start ([' '] ++ '=' :: [' '] ++ behind) _
    (isBlank_indent depth) htarget rfl
  obtain ⟨equals, p₂, h₂⟩ := lexes_symbol p₁ behind [' '] .equals [' '] rfl rfl
  obtain ⟨d, semicolon, p₃, h₃, htree, hdeep⟩ := lexes_value hvalue p₂ rest
  refine ⟨_, p₃, ?_, .assigning ⟨target.val, span⟩ equals d semicolon, rfl, ?_, hdeep⟩
  · refine ((h₁.append h₂).append h₃).cast ?_ ?_
    · simp [Printer.statement, toList_unlines_line, unlines_nil]
    · simp [Derivation.tokens]
  · rw [Derivation.tree, Stmt.unplaced, Stmt.unplaced, htree]
    rfl

theorem lexedLines_giveBack {span : Span} (hvalue : value.Over IsPlainName IsUnsigned) :
    LexedLines (Printer.statement depth (.giveBack value span))
      (Stmt.Shown (.giveBack value span)) := by
  intro start rest
  let behind := value.text.toList ++ [';', '\n'] ++ rest
  obtain ⟨keyword, p₁, h₁⟩ := lexes_keyword start ([' '] ++ behind) _ (isBlank_indent depth)
    .giveBack rfl
  obtain ⟨p₂, h₂⟩ := lexes_blanks p₁ behind [' '] rfl
  obtain ⟨d, semicolon, p₃, h₃, htree, hdeep⟩ := lexes_value hvalue p₂ rest
  refine ⟨_, p₃, ?_, .returning keyword d semicolon, rfl, ?_, hdeep⟩
  · refine ((h₁.append h₂).append h₃).cast ?_ ?_
    · simp [Printer.statement, toList_unlines_line, unlines_nil, Keyword.text]
    · simp [Derivation.tokens]
  · rw [Derivation.tree, Stmt.unplaced, Stmt.unplaced, htree]

theorem lexedLines_eval (hvalue : value.Over IsPlainName IsUnsigned) :
    LexedLines (Printer.statement depth (.eval value)) (Stmt.Shown (.eval value)) := by
  intro start rest
  obtain ⟨p₁, h₁⟩ := lexes_blanks start (value.text.toList ++ [';', '\n'] ++ rest) _
    (isBlank_indent depth)
  obtain ⟨d, semicolon, p₂, h₂, htree, hdeep⟩ := lexes_value hvalue p₁ rest
  refine ⟨_, p₂, ?_, .evaluating d semicolon, rfl, ?_, hdeep⟩
  · refine (h₁.append h₂).cast ?_ rfl
    simp [Printer.statement, toList_unlines_line, unlines_nil]
  · rw [Derivation.tree, Stmt.unplaced, Stmt.unplaced, htree]

/-- How a name is printed. -/
abbrev Ident.Shown (name : Ident) (toks : Tokens) : Prop :=
  ∃ span, toks = [⟨.identifier name.val, span⟩]

theorem lexedAs_names {params : List Ident} (hne : params ≠ [])
    (h : ∀ param ∈ params, LexedAs param.val param.Shown) :
    LexedAs (String.intercalate ", " (params.map (·.val))) (Nonterminal.names.Nests
      (List.map Ident.unplaced) (params.map Ident.unplaced) 0) := by
  refine lexedAs_intercalate (fun params => Nonterminal.names.Nests (List.map Ident.unplaced)
    (params.map Ident.unplaced) 0) ?_ ?_ hne h
  · rintro name _ ⟨span, rfl⟩
    exact ⟨.lastName ⟨name.val, span⟩, rfl, rfl, rfl, trivial⟩
  · rintro name _ names _ comma ⟨span, rfl⟩ ⟨later, rfl, htree, hdeep⟩
    refine ⟨.moreNames ⟨name.val, span⟩ comma later, rfl, ?_, hdeep⟩
    rw [Derivation.tree, List.map_cons, List.map_cons, htree]
    rfl

theorem lexedAs_parameters {params : List Ident} (h : ∀ param ∈ params, IsPlainName param.val) :
    LexedAs (String.intercalate ", " (params.map (·.val))) (Nonterminal.parameters.Nests
      (List.map Ident.unplaced) (params.map Ident.unplaced) 0) := by
  have hnames (param : Ident) (hparam : param ∈ params) : LexedAs param.val param.Shown := by
    intro start rest hrest
    obtain ⟨span, stop, hlexes⟩ := lexes_identifier start rest [] rfl (h param hparam) hrest
    exact ⟨_, stop, hlexes, span, rfl⟩
  by_cases hne : params = []
  · subst hne
    exact lexedAs_empty ⟨.noNames, rfl, rfl, rfl, trivial⟩
  · intro start rest hrest
    obtain ⟨_, stop, hlexes, d, rfl, hd⟩ := lexedAs_names hne hnames start rest hrest
    exact ⟨_, stop, hlexes, .someNames d, rfl, hd⟩

theorem lexedLines_define {name : Ident} {params : List Ident} {body : List Stmt}
    (hname : IsPlainName name.val) (hparams : ∀ param ∈ params, IsPlainName param.val)
    (hbody : LexedLines (Printer.statements (depth + 1) body) (Stmt.AllNested body)) :
    LexedLines (Printer.statement depth (.define name params body))
      (Stmt.Shown (.define name params body)) := by
  intro start rest
  let indent := List.replicate (4 * depth) ' '
  let close := indent ++ '}' :: ['\n'] ++ rest
  let block := [' '] ++ '{' :: ['\n'] ++
    ((Text.unlines (Printer.statements (depth + 1) body)).toList ++ close)
  obtain ⟨keyword, p₁, h₁⟩ := lexes_keyword start
    ([' '] ++ (signature name params).toList ++ block) indent (isBlank_indent depth) .define rfl
  obtain ⟨span, leftParen, _, rightParen, p₂, h₂, names, rfl, htree, hnesting, hplain⟩ :=
    lexes_signature p₁ block [' '] rfl hname (lexedAs_parameters hparams)
  obtain ⟨leftBrace, p₃, h₃⟩ := lexes_symbol p₂
    ((Text.unlines (Printer.statements (depth + 1) body)).toList ++ close) [' '] .leftBrace ['\n']
    rfl rfl
  obtain ⟨_, p₄, h₄, ss, rfl, htree', hnesting', hplain'⟩ := hbody p₃ close
  obtain ⟨rightBrace, p₅, h₅⟩ := lexes_symbol p₄ rest indent .rightBrace ['\n']
    (isBlank_indent depth) rfl
  refine ⟨_, p₅, ?_, .defining (.definition keyword ⟨name.val, span⟩ leftParen names rightParen
    leftBrace ss rightBrace), rfl, ?_, ?_, hplain, hplain'⟩
  · refine ((((h₁.append h₂).append h₃).append h₄).append h₅).cast ?_ ?_
    · simp [Printer.statement, toList_unlines_line, toList_unlines_append, unlines_nil, signature,
        Keyword.text, indent]
    · simp [Derivation.tokens]
  · rw [Derivation.tree, Derivation.tree, Stmt.unplaced, Stmt.unplaced, htree, htree']
    rfl
  · rw [Derivation.nesting, Derivation.nesting, hnesting, hnesting', Nat.zero_max]
    rfl

theorem lexedLines_next {s : Stmt} {ss : List Stmt}
    (h : LexedLines (Printer.statement depth s) s.Shown)
    (h' : LexedLines (Printer.statements depth ss) (Stmt.AllNested ss)) :
    LexedLines (Printer.statements depth (s :: ss)) (Stmt.AllNested (s :: ss)) := by
  intro start rest
  obtain ⟨_, mid, hfirst, first, rfl, htree, hnesting, hplain⟩ :=
    h start ((Text.unlines (Printer.statements depth ss)).toList ++ rest)
  obtain ⟨_, stop, hlater, later, rfl, htree', hnesting', hplain'⟩ := h' mid rest
  refine ⟨_, stop, (hfirst.append hlater).cast ?_ rfl, .next first later, rfl, ?_, ?_,
    hplain, hplain'⟩
  · rw [Printer.statements, toList_unlines_append]
  · rw [Derivation.tree, Stmt.unplacedAll, Stmt.unplacedAll, htree, htree']
  · rw [Derivation.nesting, Stmt.enclosuresOfAll, hnesting, hnesting']

theorem lexedLines_nested {ss : List Stmt} (hover : Stmt.AllOver IsPlainName IsUnsigned ss) :
    LexedLines (Printer.statements depth ss) (Stmt.AllNested ss) := by
  induction ss using Stmt.induction_all generalizing depth with
  | nil =>
      intro start rest
      obtain ⟨stop, hnone⟩ := lexes_blanks start rest [] rfl
      exact ⟨[], stop, hnone.cast (by simp [Printer.statements, unlines_nil]) rfl, .done, rfl, rfl,
        rfl, trivial⟩
  | define name params body ss ih ih' =>
      obtain ⟨⟨hname, hparams, hbody⟩, hover⟩ := hover
      exact lexedLines_next (lexedLines_define hname hparams (ih hbody)) (ih' hover)
  | assign target value ss ih =>
      exact lexedLines_next (lexedLines_assign hover.1.1 hover.1.2) (ih hover.2)
  | giveBack value span ss ih => exact lexedLines_next (lexedLines_giveBack hover.1) (ih hover.2)
  | eval value ss ih => exact lexedLines_next (lexedLines_eval hover.1) (ih hover.2)

theorem lexedLines_statements {ss : List Stmt} (hover : Stmt.AllOver IsPlainName IsUnsigned ss)
    (hshallow : Stmt.AllShallow depth ss) :
    LexedLines (Printer.statements depth ss) (Stmt.AllShown depth ss) := by
  intro start rest
  obtain ⟨toks, stop, hlexes, d, htokens, htree, hnesting, -⟩ :=
    lexedLines_nested hover start rest
  exact ⟨toks, stop, hlexes, d, htokens, htree,
    hnesting ▸ Stmt.enclosures_le_of_shallow hshallow⟩

end Statements

/-- A program is parsed from its own text, but for the places of its names. -/
theorem Program.parse_text (program : Program) (hover : program.Over IsPlainName IsUnsigned)
    (hshallow : program.Shallow) :
    ∃ program', Toolchain.parse program.text = .ok program' ∧
      program'.unplaced = program.unplaced := by
  obtain ⟨_, stop, hlexes, d, rfl, htree, hnesting⟩ := lexedLines_statements hover hshallow 0 []
  have htokens : tokens program.text.toList = .ok d.tokens := by
    rw [Lexes, List.append_nil, tokensFrom] at hlexes
    rw [tokens, Program.text, hlexes]
    exact congrArg Except.ok (List.append_nil _)
  have hheights : (Stmt.expressionsOfAll d.tree).map Expr.height =
      (Stmt.expressionsOfAll program).map Expr.height := by
    rw [← Stmt.heights_unplacedAll, htree, Stmt.heights_unplacedAll]
  have hlimits : d.WithinLimits := by
    constructor
    · rw [d.depths_le_iff (Nat.zero_le _), Nat.zero_add]
      exact hnesting
    · have hall : ∀ height ∈ (Stmt.expressionsOfAll program).map Expr.height,
          height ≤ maxNesting := List.forall_mem_map.2 (Stmt.height_le_of_shallow hshallow)
      rw [← hheights] at hall
      exact List.forall_mem_map.1 hall
  refine ⟨d.tree, ?_, htree⟩
  have hparse : parse d.tokens = .ok d.tree := d.parse_tokens.eq_ok hlimits
  rw [Toolchain.parse, htokens]
  exact mapError_eq_ok_iff.2 hparse

/-- The program of this text, with every name at the beginning:

    def outer(a, b) {
        def inner() {
            return a;
        }
        return (inner() + (b * 1.5));
    }
    outer(3, x);
-/
def nestedDefinitions : Program :=
  let name (text : String) : Ident := ⟨text, 0, 0⟩
  [.define (name "outer") [name "a", name "b"]
    [.define (name "inner") [] [.giveBack (.variable (name "a")) ⟨0, 0⟩],
      .giveBack (.binary .add (.call (name "inner") [])
        (.binary .mul (.variable (name "b")) (.number ⟨0x3FF8000000000000⟩))) ⟨0, 0⟩],
    .eval (.call (name "outer") [.number ⟨0x4008000000000000⟩, .variable (name "x")])]

theorem nestedDefinitions_parse_text :
    ∃ program', Toolchain.parse nestedDefinitions.text = .ok program' ∧
      program'.unplaced = nestedDefinitions.unplaced := by
  have hname {name : String} (c : Char) (tail : List Char) (h : name = String.ofList (c :: tail))
      (hstart : startsName c = true) (htail : tail.all continuesName = true)
      (hdefine : name ≠ "def") (hreturn : name ≠ "return") : IsPlainName name :=
    ⟨⟨c, tail, h ▸ String.toList_ofList, hstart, List.all_eq_true.1 htail⟩, hdefine, hreturn⟩
  have houter : IsPlainName "outer" := hname 'o' "uter".toList rfl rfl rfl (by decide) (by decide)
  have hinner : IsPlainName "inner" := hname 'i' "nner".toList rfl rfl rfl (by decide) (by decide)
  have ha : IsPlainName "a" := hname 'a' [] rfl rfl rfl (by decide) (by decide)
  have hb : IsPlainName "b" := hname 'b' [] rfl rfl rfl (by decide) (by decide)
  have hx : IsPlainName "x" := hname 'x' [] rfl rfl rfl (by decide) (by decide)
  have hfraction : IsUnsigned ⟨0x3FF8000000000000⟩ := ⟨by decide, by decide⟩
  have hwhole : IsUnsigned ⟨0x4008000000000000⟩ := ⟨by decide, by decide⟩
  refine nestedDefinitions.parse_text ?_ ?_
  · exact ⟨⟨houter, by simp [ha, hb], ⟨hinner, List.forall_mem_nil _, ha, trivial⟩,
      ⟨⟨hinner, trivial⟩, hb, hfraction⟩, trivial⟩, ⟨houter, hwhole, hx, trivial⟩, trivial⟩
  · simp [nestedDefinitions, Program.Shallow, Stmt.AllShallow, Stmt.Shallow, Expr.height,
      Expr.heightOfAll, maxNesting]

end StackCalc.Source
