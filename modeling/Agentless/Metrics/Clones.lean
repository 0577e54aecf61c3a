import Agentless.Library.OrderedTree
import Agentless.Library.Text

/-!
# Clone keys

The two keys of a block. The Type-2 key numbers identifiers by first use and names literals by
class, and the exact key keeps every token as written. Both hash the pieces that one walk of the tree
writes, with brackets and commas between the children that are kept.
-/

namespace Agentless.Metrics.Clones

/-- A set of kinds of one language. -/
abbrev KindSet : Type := List Nat

inductive LiteralClass where
  | str | num | int | float | bool | null
deriving DecidableEq, Repr

/-- The token text of the class. -/
def LiteralClass.text : LiteralClass → Text
  | .str => "STR".toList
  | .num => "NUM".toList
  | .int => "INT".toList
  | .float => "FLOAT".toList
  | .bool => "BOOL".toList
  | .null => "NONE".toList

structure CloneRules where
  identifiers : KindSet
  literals : List (KindSet × LiteralClass)
deriving Repr

def CloneRules.literalClass (rules : CloneRules) (kind : Nat) : Option LiteralClass :=
  (rules.literals.find? fun entry => entry.1.contains kind).map Prod.snd

/-- The measured part of a language. -/
structure Spec where
  comments : KindSet
  statementParents : Option KindSet
  clones : CloneRules
deriving Repr

/-- The kinds that the metrics rules name in code. -/
structure Kinds where
  string : KindSet
  tupleExpression : KindSet
deriving Repr

/-- What a walk reads of the language. -/
structure Tables where
  spec : Spec
  kinds : Kinds
  kindName : Nat → Text

/-- What a walk reads of a node. -/
structure Node where
  kind : Nat
  named : Bool
  text : Text
deriving DecidableEq, Repr

abbrev Tree : Type := OrderedTree Node

/-- Only b, B, f and F lower-case to b or f. -/
def bytesOrFormat (literal : Text) : Bool :=
  (literal.takeWhile fun c => c ≠ '"' && c ≠ '\'').any fun c => ['b', 'B', 'f', 'F'].contains c

section Walk

variable (tables : Tables)

/-- A plain string is a string literal with no bytes or format letter before its quote. -/
def isPlainString (node : Node) : Bool :=
  tables.kinds.string.contains node.kind && !bytesOrFormat node.text

/-- A plain-string statement drops out with no ownership test, and so does a tuple that holds only
one plain string. -/
def isDocstringStatement (child : Tree) (parent : Node) : Bool :=
  match tables.spec.statementParents with
  | none => false
  | some parents =>
    if !parents.contains parent.kind then false
    else if tables.kinds.tupleExpression.contains child.label.kind then
      let named := child.children.filter fun node => node.label.named
      named.length = 1 && named.head?.any fun only => isPlainString tables only.label
    else isPlainString tables child.label

def keeps (parent : Node) (child : Tree) : Bool :=
  !tables.spec.comments.contains child.label.kind && !isDocstringStatement tables child parent

def keptChildren (node : Tree) : List Tree := node.children.filter (keeps tables node.label)

/-! ## The streams -/

/-- The pieces of a key, one after another with the separator between two. -/
structure Joined where
  separator : Text
  started : Bool
  text : Text
deriving DecidableEq, Repr

def Joined.new (separator : Text) : Joined where
  separator
  started := false
  text := []

def Joined.piece (joined : Joined) (piece : Text) : Joined :=
  let before := if joined.started then joined.separator else []
  { joined with started := true, text := joined.text ++ before ++ piece }

/-- The pieces of both keys, written as the walk meets them. -/
structure Streams where
  names : List (Text × Text)
  type2 : Joined
  exact : Joined
  tokens : Nat
deriving DecidableEq, Repr

def Streams.piece (streams : Streams) (piece : Text) : Streams :=
  { streams with type2 := streams.type2.piece piece, exact := streams.exact.piece piece }

inductive Item where
  | node (node : Tree)
  | token (text : Text)

def varLabel (number : Nat) : Text := "$VAR".toList ++ Nat.toDigits 10 number

/-- The label of the identifier, which gets the next number when it is new. -/
def Streams.label (streams : Streams) (text : Text) : Text × List (Text × Text) :=
  match streams.names.lookup text with
  | some label => (label, streams.names)
  | none =>
    let label := varLabel (streams.names.length + 1)
    (label, streams.names ++ [(text, label)])

/-- The stack pops the children first to last, with a comma between two and a close after the
last. -/
def pushOpened (kept : List Tree) (stack : List Item) : List Item :=
  kept.reverse.zipIdx.foldl (fun stack entry =>
    let stack := .node entry.1 :: stack
    if entry.2 + 1 < kept.length then .token ",".toList :: stack else stack)
    (.token ")".toList :: stack)

/-- The streams behind a node, and the stack with what is open in it. -/
def Streams.node (streams : Streams) (node : Tree) (stack : List Item) : Streams × List Item :=
  let kind := node.label.kind
  let name := tables.kindName kind
  if tables.spec.clones.identifiers.contains kind then
    let text := node.label.text
    let (label, names) := streams.label text
    ({ names
       type2 := streams.type2.piece label
       exact := streams.exact.piece (name ++ '=' :: text)
       tokens := streams.tokens + 1 }, stack)
  else
    match tables.spec.clones.literalClass kind with
    | some literal =>
      ({ streams with
         type2 := streams.type2.piece ('$' :: literal.text)
         exact := streams.exact.piece (name ++ '=' :: node.label.text)
         tokens := streams.tokens + 1 }, stack)
    | none =>
      let kept := keptChildren tables node
      if kept.isEmpty then ({ streams.piece name with tokens := streams.tokens + 1 }, stack)
      else (streams.piece (name ++ ['(']), pushOpened kept stack)

def Item.weight : Item → Nat
  | .node tree => 2 * tree.size - 1
  | .token _ => 1

def weight (stack : List Item) : Nat := (stack.map Item.weight).sum

@[simp] theorem weight_cons (item : Item) (stack : List Item) :
    weight (item :: stack) = item.weight + weight stack := by
  simp [weight]

/-- The children behind the first one, as they are popped. -/
def restItems : List Tree → List Item
  | [] => [.token ")".toList]
  | child :: children => .token ",".toList :: .node child :: restItems children

theorem pushOpened_cons (child : Tree) (children : List Tree) (stack : List Item) :
    pushOpened (child :: children) stack = .node child :: (restItems children ++ stack) := by
  have hrest (trees : List Tree) (count : Nat) (hcount : trees.length < count) :
      trees.reverse.zipIdx.foldl (fun stack entry =>
        if entry.2 + 1 < count then Item.token ",".toList :: .node entry.1 :: stack
        else .node entry.1 :: stack) (.token ")".toList :: stack) = restItems trees ++ stack := by
    induction trees with
    | nil => rfl
    | cons tree trees ih =>
      rw [List.length_cons] at hcount
      rw [List.reverse_cons, List.zipIdx_append, List.foldl_append, ih (by omega)]
      simp [restItems, hcount]
  unfold pushOpened
  dsimp only
  rw [List.reverse_cons, List.zipIdx_append, List.foldl_append, hrest children _ (by simp)]
  simp

theorem weight_restItems (trees : List Tree) (stack : List Item) :
    weight (restItems trees ++ stack) =
      2 * OrderedTree.sizes trees + 1 + weight stack := by
  induction trees with
  | nil => simp [restItems, OrderedTree.sizes, Item.weight]
  | cons tree trees ih =>
    have hpos := tree.size_pos
    simp only [restItems, List.cons_append, weight_cons, ih, OrderedTree.sizes, Item.weight]
    omega

theorem sizes_filter_le (keep : Tree → Bool) (trees : List Tree) :
    OrderedTree.sizes (trees.filter keep) ≤ OrderedTree.sizes trees := by
  induction trees with
  | nil => exact Nat.le_refl _
  | cons tree trees ih =>
    rw [List.filter_cons]
    split_ifs
    · exact Nat.add_le_add_left ih _
    · exact ih.trans (Nat.le_add_left _ _)

theorem weight_node_lt (streams : Streams) (node : Tree) (stack : List Item) :
    weight (streams.node tables node stack).2 < weight (.node node :: stack) := by
  have hpos := node.size_pos
  have hown : weight stack < weight (.node node :: stack) := by
    rw [weight_cons, Item.weight]
    omega
  unfold Streams.node
  dsimp only
  split
  · exact hown
  · split
    · exact hown
    · split
      · exact hown
      · rename_i hkept
        obtain ⟨child, children, heq⟩ := List.exists_cons_of_ne_nil
          (fun hnil => hkept (List.isEmpty_iff.mpr hnil))
        have hsizes := sizes_filter_le (keeps tables node.label) node.children
        rw [← keptChildren, heq, OrderedTree.sizes] at hsizes
        have hchild := child.size_pos
        rw [heq, pushOpened_cons, weight_cons, weight_cons, weight_restItems, Item.weight,
          Item.weight, node.size_eq]
        omega

def walk (streams : Streams) : List Item → Streams
  | [] => streams
  | .token text :: stack => walk (streams.piece text) stack
  | .node node :: stack =>
    walk (streams.node tables node stack).1 (streams.node tables node stack).2
termination_by stack => weight stack
decreasing_by
  · simp [Item.weight]
  · exact weight_node_lt tables streams node stack

structure CloneKey where
  type2 : Bytes
  exact : Bytes
  tokens : Nat
deriving DecidableEq, Repr

def Streams.new : Streams where
  names := []
  type2 := Joined.new []
  exact := Joined.new [Char.ofNat 0]
  tokens := 0

/-- The keys of a tree, with `sha256` the digest of the joined pieces. -/
def cloneKey (sha256 : Bytes → Bytes) (root : Tree) : CloneKey :=
  let streams := walk tables Streams.new [.node root]
  { type2 := sha256 (utf8 streams.type2.text)
    exact := sha256 (utf8 streams.exact.text)
    tokens := streams.tokens }

end Walk

end Agentless.Metrics.Clones
