import SqlFilter.Table
import SqlFilter.Table.Naming

/-!
# Attached databases

The external connections of a query are attached to its statement under aliases made from the kind
and the name of each connection. Aliases are plain lower-case identifiers, differ from each other
and from the catalogs that the engine has itself.
-/

namespace SqlFilter

namespace Attachment

/-- The catalogs that the engine has itself. -/
def reserved : List String := ["main", "memory", "system", "temp"]

/-- What the lower case of a character leaves of it in an alias: ASCII letters and digits stand for
themselves, and all else is an underscore. Beyond ASCII only the dotted capital I and the Kelvin
sign have an ASCII letter in their lower case. -/
def aliasChars (c : Char) : List Char :=
  if c.isAlphanum then [c.toLower]
  else if c = Char.ofNat 0x130 then ['i', '_']
  else if c = Char.ofNat 0x212A then ['k']
  else ['_']

def squeeze : List Char → List Char
  | '_' :: '_' :: cs => squeeze ('_' :: cs)
  | c :: cs => c :: squeeze cs
  | [] => []

def strip (cs : List Char) : List Char :=
  let isBar (c : Char) : Bool := c == '_'
  ((cs.dropWhile isBar).reverse.dropWhile isBar).reverse

/-- The alias that a text suggests: a lower-case letter, then lower-case letters, digits and single
underscores. -/
def suggested (s : String) : String :=
  match strip (squeeze (s.toList.flatMap aliasChars)) with
  | [] => "db"
  | c :: cs => String.ofList (if c.isLower then c :: cs else 'd' :: 'b' :: '_' :: c :: cs)

/-- Attaches a connection under an alias not yet in use, unless it is attached already. -/
def attach (attached : List Attachment) (c : Connection) : List Attachment :=
  if attached.any (·.connection = c.id) then attached
  else
    let used := reserved ++ attached.map Attachment.aliasName
    attached ++ [⟨unusedName used (suggested (c.kind ++ "_" ++ c.name)), c.id, c.kind⟩]

/-- Attaches the external connections of the tables in the order in which they first appear. -/
def ofTables (tables : List Table) : List Attachment :=
  (tables.filterMap Table.connection?).foldl attach []

end Attachment

/-- Where a statement has to run. -/
inductive ExecutionSource where
  /-- On the engine itself: all tables are its own. -/
  | ownEngine
  | federated (attached : List Attachment)
  deriving DecidableEq, Repr

def ExecutionSource.ofAttached (attached : List Attachment) : ExecutionSource :=
  if attached = [] then ownEngine else federated attached

end SqlFilter
