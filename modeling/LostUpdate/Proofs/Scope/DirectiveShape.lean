import LostUpdate.Scope.Directive

namespace LostUpdate

/-- Whether a node says nothing about names, whatever its parts say. -/
def Form.isQuiet {α : Type} : Form α → Bool
  | .name .. | .assign .. | .augmented .. | .annotated .. | .walrus .. | .globalDecl ..
  | .nonlocalDecl .. | .importStmt .. | .importFrom .. | .handler .. | .matchAs .. | .matchStar ..
  | .matchMapping .. | .function .. | .lambda .. | .classDef .. | .comprehension .. => false
  | _ => true

/-- The name under which a handler or pattern keeps what it catches, if it gives one. -/
def Form.capture? {α : Type} : Form α → Option (Option String)
  | .handler _ caught _ | .matchAs _ caught | .matchStar caught | .matchMapping _ _ caught => some caught
  | _ => none

namespace Node

theorem flatMap_directives_attach (l : List Node) :
    (l.attach.flatMap fun c => c.1.directives) = l.flatMap directives := by
  rw [List.flatMap_subtype (fun _ _ => rfl), List.unattach_attach]

def parameterDirectives (n : Node) : List Directive :=
  n.declaredParameters.map fun e => .bind e.1 e.2

/-- How the directives of a node are put together from those of its parts. -/
inductive DirectiveShape (n : Node) : List Directive → Prop
  | quiet (hn : n.form.isQuiet = true) : DirectiveShape n (n.children.flatMap directives)
  | read {x : String} (hn : n.form = .name x .load) :
      DirectiveShape n [.use ⟨n, x, true, false, none⟩]
  | stored {x : String} {context : Context} (hn : n.form = .name x context)
      (hc : context ≠ .load) : DirectiveShape n [.bind x n, .use ⟨n, x, false, true, none⟩]
  | assign {targets : List Node} {value : Node} (hn : n.form = .assign targets value) :
      DirectiveShape n
        (targets.flatMap (storeDirectives (some value) false) ++ value.directives)
  | augmented {target value : Node} {op : BinaryOp} (hn : n.form = .augmented target op value) :
      DirectiveShape n (target.storeDirectives (some value) true ++ value.directives)
  | annotated {target hint value : Node} {simple : Int}
      (hn : n.form = .annotated target hint (some value) simple) :
      DirectiveShape n
        (target.storeDirectives (some value) false ++ hint.directives ++ value.directives)
  | declared {target hint : Node} {simple : Int} {x : String} {context : Context}
      (hn : n.form = .annotated target hint none simple) (ht : target.form = .name x context) :
      DirectiveShape n ([.bind x target] ++ hint.directives)
  | hinted {target hint : Node} {simple : Int} (hn : n.form = .annotated target hint none simple) :
      DirectiveShape n (target.directives ++ hint.directives)
  | walrus {target value : Node} {x : String} {context : Context}
      (hn : n.form = .walrus target value) (ht : target.form = .name x context) :
      DirectiveShape n
        ([.hoist x target, .use ⟨target, x, false, true, some value⟩] ++ value.directives)
  | bareWalrus {target value : Node} (hn : n.form = .walrus target value)
      (ht : ∀ x context, target.form ≠ .name x context) : DirectiveShape n value.directives
  | globalDecl {names : List String} (hn : n.form = .globalDecl names) :
      DirectiveShape n [.declareGlobal names]
  | nonlocalDecl {names : List String} (hn : n.form = .nonlocalDecl names) :
      DirectiveShape n [.declareNonlocal names]
  | importStmt {aliases : List Node} (hn : n.form = .importStmt aliases) :
      DirectiveShape n ((aliases.filterMap importedName).map (.bind · n))
  | importFrom {module : Option String} {aliases : List Node} {level : Int}
      (hn : n.form = .importFrom module aliases level) :
      DirectiveShape n ((aliases.filterMap importedMember).map (.bind · n))
  | capture {name : Option String} (before after : List Node)
      (hn : n.form.capture? = some name) (parts : n.children = before ++ after) :
      DirectiveShape n
        (before.flatMap directives ++ bindName name n ++ after.flatMap directives)
  | function {isAsync : Bool} {name : String} {parameters : Node} {body decorators : List Node}
      {returns : Option Node}
      (hn : n.form = .function isAsync name parameters body decorators returns) :
      DirectiveShape n (n.heading.flatMap directives ++ [.bind name n, .openScope .function n] ++
        parameters.parameterDirectives ++ body.flatMap directives ++ [.closeScope])
  | lambda {parameters body : Node} (hn : n.form = .lambda parameters body) :
      DirectiveShape n (n.heading.flatMap directives ++ [.openScope .function n] ++
        parameters.parameterDirectives ++ body.directives ++ [.closeScope])
  | classDef {name : String} {bases keywords body decorators : List Node}
      (hn : n.form = .classDef name bases keywords body decorators) :
      DirectiveShape n (n.heading.flatMap directives ++ [.bind name n, .openScope .classBody n] ++
        body.flatMap directives ++ [.closeScope])
  | comprehension {collector : Collector} {elements clauses : List Node}
      (hn : n.form = .comprehension collector elements clauses) :
      DirectiveShape n (n.heading.flatMap directives ++ [.openScope (collectorScope collector) n] ++
        (clauses.head?.toList.flatMap (clauseDirectives true) ++
          clauses.tail.flatMap (clauseDirectives false)) ++
        elements.flatMap directives ++ [.closeScope])

variable (n : Node)

theorem directives_shape : n.DirectiveShape n.directives := by
  cases n with
  | mk i s f =>
    rw [directives.eq_def]
    cases f
    case name x context =>
      cases context with
      | load => exact .read rfl
      | _ => exact .stored rfl (by simp)
    case assign => exact .assign rfl
    case augmented => exact .augmented rfl
    case annotated target hint value simple =>
      cases value with
      | some value => exact .annotated rfl
      | none =>
        dsimp only
        cases ht : target.form
        case name => exact .declared rfl ht
        all_goals exact .hinted rfl
    case walrus target value =>
      dsimp only
      cases ht : target.form
      case name => exact .walrus rfl ht
      all_goals exact .bareWalrus rfl (by simp [ht])
    case globalDecl => exact .globalDecl rfl
    case nonlocalDecl => exact .nonlocalDecl rfl
    case importStmt => exact .importStmt rfl
    case importFrom => exact .importFrom rfl
    case handler exception name body =>
      have shape := DirectiveShape.capture (n := mk i s (.handler exception name body))
        exception.toList body rfl rfl
      cases exception <;> simpa using shape
    case matchAs pattern name =>
      have shape := DirectiveShape.capture (n := mk i s (.matchAs pattern name)) pattern.toList []
        rfl (List.append_nil _).symm
      cases pattern <;> simpa using shape
    case matchStar name =>
      simpa using DirectiveShape.capture (n := mk i s (.matchStar name)) [] [] rfl rfl
    case matchMapping keys patterns rest =>
      simpa using DirectiveShape.capture (n := mk i s (.matchMapping keys patterns rest))
        (keys ++ patterns) [] rfl (List.append_nil _).symm
    case function =>
      simp only [flatMap_directives_attach]
      exact .function rfl
    case lambda =>
      simp only [flatMap_directives_attach]
      exact .lambda rfl
    case classDef =>
      simp only [flatMap_directives_attach]
      exact .classDef rfl
    case comprehension collector elements clauses =>
      have shape := DirectiveShape.comprehension (n := mk i s (.comprehension collector elements
        clauses)) rfl
      simp only [flatMap_directives_attach]
      cases clauses <;> simpa using shape
    all_goals
      simp only [flatMap_directives_attach]
      exact .quiet rfl

end Node

end LostUpdate
