import CodeGraph.Walk.Types

namespace CodeGraph

/-!
# The walk over bodies

What compilers move out of a body (closures, iterators, asynchronous code) is read as part of the
member that the body belongs to, so that its links leave that member.
-/

def moveNext : String := "MoveNext"

structure BodyState where
  dedup : LinkDedup
  sink : Sink
  /-- Bodies still to be read, the next one first. -/
  pending : List Nat
  visited : List Nat
  /-- Generated types whose code was taken in. -/
  unwrapped : List Nat

namespace WalkContext

/-- The methods that make up a generated type's code. -/
def generatedCode (ctx : WalkContext) (walk : TypeWalk) (type : Nat) (ns : String)
    (nesting : List String) : List Nat :=
  if walk.asyncTypes.contains (ctx.ownTypeName ns nesting) then
    (ctx.view.findMethod type moveNext).toList
  else
    (ctx.view.members type).filter fun m =>
      match ctx.view.memberSymbol ctx.index m with
      | .ok symbol => symbol.kind == .method
      | .error _ => false

/-- A generated type's code is to be read as part of the current member, once. -/
def unwrap (ctx : WalkContext) (walk : TypeWalk) (t : NamedType) (b : BodyState) : BodyState :=
  match t.handle with
  | none => b
  | some type =>
    if b.unwrapped.contains type then b
    else
      { b with
        unwrapped := type :: b.unwrapped
        pending := (ctx.generatedCode walk type t.ns t.nesting).reverse ++ b.pending }

def isPrivateMember (ctx : WalkContext) (member : Nat) : Bool :=
  match ctx.view.memberSymbol ctx.index member with
  | .ok symbol => symbol.isPrivate
  | .error _ => false

def bodyLinkType (ctx : WalkContext) (kind : LinkKind) (b : BodyState) (t : TypeRef) : BodyState :=
  let (dedup, sink) := ctx.linkType kind none (b.dedup, b.sink) t
  { b with dedup, sink }

def typeMention (ctx : WalkContext) (walk : TypeWalk) (target : TypeRef) (usage : TypeUsage)
    (b : BodyState) : BodyState :=
  match target.asNamed?.filter (·.isGenerated) with
  | some named => if usage = .local then ctx.unwrap walk named b else b
  | none => ctx.bodyLinkType (if usage = .generic then .genericArgument else .variableType) b target

def linkMember (ctx : WalkContext) (target : MemberRef) (usage : MemberUsage) (b : BodyState) : BodyState :=
  let (name, sink) := ctx.memberTarget target.declaring target.segment target.kind b.sink
  match name with
  | none => { b with sink }
  | some name =>
    if name = b.dedup.source then { b with sink }
    else
      let kind := if usage = .access then LinkKind.memberAccess else .call
      let targetKind := if target.handle.any ctx.isPrivateMember then NodeKind.privateMember else .member
      let (link, dedup) := b.dedup.link name targetKind kind
      { b with dedup, sink := sink.link? link }

def memberMention (ctx : WalkContext) (walk : TypeWalk) (target : MemberRef) (usage : MemberUsage)
    (b : BodyState) : BodyState :=
  if target.isLocalFunction then b
  else if target.isGenerated then
    if target.declaring.isGenerated ∧ usage = .creation then ctx.unwrap walk target.declaring b
    else
      match target.handle, target.kind with
      | some handle, .method => { b with pending := handle :: b.pending }
      | _, _ => b
  else
    let b := (target.args ++ target.declaring.args).foldl (ctx.bodyLinkType .genericArgument) b
    if target.isImplicitCtor then b else ctx.linkMember target usage b

def mention (ctx : WalkContext) (walk : TypeWalk) (b : BodyState) : BodyRef → BodyState
  | .type target usage => ctx.typeMention walk target usage b
  | .member target usage => ctx.memberMention walk target usage b

/-- Reads the pending bodies, each once. The first argument bounds the number of bodies that can be
read. -/
def readBodies (ctx : WalkContext) (walk : TypeWalk) (bodies : Nat) (b : BodyState) : BodyState :=
  match _h : b.pending with
  | [] => b
  | member :: pending =>
    if b.visited.contains member then ctx.readBodies walk bodies { b with pending }
    else
      let b' := { b with pending, visited := member :: b.visited }
      match ctx.view.body ctx.index member, bodies with
      | .error _, bodies => ctx.readBodies walk bodies b'
      | .ok _, 0 => b
      | .ok mentions, bodies + 1 => ctx.readBodies walk bodies (mentions.foldl (ctx.mention walk) b')
termination_by (bodies, b.pending.length)
decreasing_by
  · exact Prod.Lex.right _ (by simp [_h])
  · exact Prod.Lex.right _ (by simp [_h])
  · exact Prod.Lex.left _ _ (Nat.lt_succ_self _)

def analyzeBody (ctx : WalkContext) (walk : TypeWalk) (member : Nat) (dedup : LinkDedup) (s : Sink) :
    LinkDedup × Sink :=
  let b := ctx.readBodies walk (ctx.view.memberCount + 1) ⟨dedup, s, [member], [], []⟩
  (b.dedup, b.sink)

end WalkContext

end CodeGraph
