import LostUpdate.Syntax.Kind
import LostUpdate.Syntax.Tree

namespace LostUpdate

inductive Category
  | program | statement | expression | clause | handler | parameterList | parameter | keyword
  | alias | withItem | matchCase | pattern
  deriving DecidableEq, Repr

namespace Form

variable {α : Type}

def category : Form α → Category
  | .module .. | .interactive .. | .expression .. => .program
  | .clause .. => .clause
  | .handler .. => .handler
  | .parameterList .. => .parameterList
  | .parameter .. => .parameter
  | .keyword .. => .keyword
  | .alias .. => .alias
  | .withItem .. => .withItem
  | .matchCase .. => .matchCase
  | .matchValue .. | .matchSingleton .. | .matchSequence .. | .matchMapping .. | .matchClass ..
  | .matchStar .. | .matchAs .. | .matchOr .. => .pattern
  | f => if f.isExpression then .expression else .statement

/-- The children of a layer, field by field, each with the category that the grammar asks for. -/
def fields : Form α → List (Category × List α)
  | .module body | .interactive body => [(.statement, body)]
  | .expression body => [(.expression, [body])]
  | .function _ _ parameters body decorators returns =>
    [(.parameterList, [parameters]), (.statement, body), (.expression, decorators),
      (.expression, returns.toList)]
  | .classDef _ bases keywords body decorators =>
    [(.expression, bases), (.keyword, keywords), (.statement, body), (.expression, decorators)]
  | .returnStmt value | .yield value => [(.expression, value.toList)]
  | .deleteStmt targets => [(.expression, targets)]
  | .assign targets value => [(.expression, targets), (.expression, [value])]
  | .augmented target _ value => [(.expression, [target, value])]
  | .annotated target hint value _ => [(.expression, target :: hint :: value.toList)]
  | .forLoop _ target iterable body orelse =>
    [(.expression, [target, iterable]), (.statement, body), (.statement, orelse)]
  | .whileLoop test body orelse | .ifStmt test body orelse =>
    [(.expression, [test]), (.statement, body), (.statement, orelse)]
  | .withStmt _ items body => [(.withItem, items), (.statement, body)]
  | .matchStmt subject cases => [(.expression, [subject]), (.matchCase, cases)]
  | .raiseStmt exception cause => [(.expression, exception.toList), (.expression, cause.toList)]
  | .tryStmt _ body handlers orelse final =>
    [(.statement, body), (.handler, handlers), (.statement, orelse), (.statement, final)]
  | .assertStmt test message => [(.expression, test :: message.toList)]
  | .importStmt names | .importFrom _ names _ => [(.alias, names)]
  | .globalDecl _ | .nonlocalDecl _ | .pass | .breakStmt | .continueStmt => []
  | .exprStmt value => [(.expression, [value])]
  | .boolean _ values | .joined values => [(.expression, values)]
  | .walrus target value => [(.expression, [target, value])]
  | .binary left _ right => [(.expression, [left, right])]
  | .unary _ operand => [(.expression, [operand])]
  | .lambda parameters body => [(.parameterList, [parameters]), (.expression, [body])]
  | .conditional test body orelse => [(.expression, [test, body, orelse])]
  | .dict keys values => [(.expression, keys.filterMap id), (.expression, values)]
  | .comprehension _ elements clauses => [(.expression, elements), (.clause, clauses)]
  | .await value | .yieldFrom value | .member value _ _ | .starred value _ =>
    [(.expression, [value])]
  | .compare left _ comparators => [(.expression, left :: comparators)]
  | .call callee arguments keywords =>
    [(.expression, callee :: arguments), (.keyword, keywords)]
  | .formatted value _ spec => [(.expression, value :: spec.toList)]
  | .constant _ _ | .name _ _ => []
  | .subscript value index _ => [(.expression, [value, index])]
  | .set elements | .list elements _ | .tuple elements _ => [(.expression, elements)]
  | .slice lower upper step =>
    [(.expression, lower.toList), (.expression, upper.toList), (.expression, step.toList)]
  | .clause target iterable conditions _ => [(.expression, target :: iterable :: conditions)]
  | .handler exception _ body => [(.expression, exception.toList), (.statement, body)]
  | .parameterList p =>
    [(.parameter, p.positionalOnly), (.parameter, p.positional), (.parameter, p.variadic.toList),
      (.parameter, p.keywordOnly), (.expression, p.keywordDefaults.filterMap id),
      (.parameter, p.keywordVariadic.toList), (.expression, p.defaults)]
  | .parameter _ hint => [(.expression, hint.toList)]
  | .keyword _ value => [(.expression, [value])]
  | .alias _ _ => []
  | .withItem context target => [(.expression, context :: target.toList)]
  | .matchCase pattern guard body =>
    [(.pattern, [pattern]), (.expression, guard.toList), (.statement, body)]
  | .matchValue value => [(.expression, [value])]
  | .matchSingleton _ | .matchStar _ => []
  | .matchSequence patterns | .matchOr patterns => [(.pattern, patterns)]
  | .matchMapping keys patterns _ => [(.expression, keys), (.pattern, patterns)]
  | .matchClass cls patterns _ attributePatterns =>
    [(.expression, [cls]), (.pattern, patterns), (.pattern, attributePatterns)]
  | .matchAs pattern _ => [(.pattern, pattern.toList)]

/-- The fields leave out no child. -/
theorem flatMap_fields (f : Form α) : f.fields.flatMap (·.2) = f.children := by
  cases f <;> simp [fields, children, Parameters.children]

theorem isExpression_of_category {f : Form α} (h : f.category = .expression) :
    f.isExpression = true := by
  cases f <;> simp_all [category, isExpression]

end Form

namespace Node

/-- What the parser makes sure of besides categories: `:=` stores into a name, a dictionary display
has a value for each key, and a comprehension loops. -/
def isComplete (n : Node) : Bool :=
  match n.form with
  | .walrus target _ => match target.form with
    | .name .. => true
    | _ => false
  | .dict keys values => keys.length = values.length
  | .comprehension _ _ clauses => !clauses.isEmpty
  | _ => true

def fits (n : Node) : Bool :=
  n.isComplete && n.form.fields.all fun (k, l) => l.all fun c => c.form.category = k

/-- Whether a node and all below it keep to the grammar. -/
def isGrammatical (n : Node) : Bool := n.preorder.all fits

theorem isGrammatical_of_mem {n p : Node} (h : n.isGrammatical = true) (hp : p ∈ n.preorder) :
    p.isGrammatical = true := by
  rw [isGrammatical, List.all_eq_true] at h ⊢
  exact fun q hq => h q ((preorder_sublist hp).subset hq)

theorem isGrammatical_child {n c : Node} (h : n.isGrammatical = true) (hc : c ∈ n.children) :
    c.isGrammatical = true := by
  refine isGrammatical_of_mem h ?_
  rw [preorder_eq]
  exact List.mem_cons_of_mem _ (List.mem_flatMap.2 ⟨c, hc, c.mem_preorder_self⟩)

theorem isGrammatical.fits {n : Node} (h : n.isGrammatical = true) : n.fits = true :=
  List.all_eq_true.1 h n n.mem_preorder_self

theorem category_of_fits {n c : Node} (h : n.fits = true) {k : Category} {l : List Node}
    (hl : (k, l) ∈ n.form.fields) (hc : c ∈ l) : c.form.category = k := by
  simp only [Node.fits, Bool.and_eq_true, List.all_eq_true, decide_eq_true_eq] at h
  exact h.2 (k, l) hl c hc

end Node

/-- A tree that keeps to the grammar. -/
structure GrammaticalTree extends Tree where
  isGrammatical : root.isGrammatical = true

namespace GrammaticalTree

theorem isGrammatical_of_mem (t : GrammaticalTree) {n : Node} (hn : n ∈ t.nodes) :
    n.isGrammatical = true :=
  Node.isGrammatical_of_mem t.isGrammatical hn

/-- What is below a node of a tree, as a tree. -/
def below {t : Tree} {n : Node} (hn : n ∈ t.nodes) (hg : n.isGrammatical = true) :
    GrammaticalTree :=
  ⟨.below hn, hg⟩

end GrammaticalTree

end LostUpdate
