import SqlFilter.Console.Line
import SqlFilter.Json.Printer
import SqlFilter.Json.Settings

/-!
# The console

The console reads lines. A line is a command or filter text, which is answered by its tree and by
the SQL of the tree. The nodes of all trees shown are numbered on: `n1`, `n2` and so forth.
-/

namespace SqlFilter

structure Console where
  settings : Settings
  dialect : Dialect
  nextNode : Nat
  deriving DecidableEq, Repr

namespace Console

/-- How the console goes on behind a line. -/
inductive Next where
  | proceed (c : Console)
  | exit (code : UInt32)

def nodeName (k : Nat) : String := "n" ++ toString k

/-- A command, or filter text. -/
inductive Command where
  | quit
  | setDialect (name : String)
  | demonstrate
  | readFilter (text : String)
  deriving DecidableEq, Repr

/-- The command on a line, less the blanks around it: the word before the first space decides. A
blank line holds none. -/
def Command.ofLine? (line : String) : Option Command :=
  let input := Text.trim line
  let cs := input.toList
  let word := String.ofList (cs.takeWhile (· ≠ ' '))
  let rest := String.ofList ((cs.dropWhile (· ≠ ' ')).drop 1)
  if input = "" then none
  else if word = ":quit" ∨ word = ":q" then some .quit
  else if word = ":dialect" then some (.setDialect rest)
  else if word = ":demo" then some .demonstrate
  else some (.readFilter input)

def greeting : String :=
  "--- query_compiler: WHERE 子句 <-> 过滤树 ---\n" ++
  "输入过滤表达式, 或者 :dialect <方言>, :demo, :quit\n"

def failure (message : String) : String := "✗ " ++ message ++ "\n"

def titled (title body : String) : String := "\n[" ++ title ++ "]:\n" ++ body ++ "\n"

/-! ## Filter text -/

/-- The answer to filter text, and the number of the next node behind it. -/
def answer (c : Console) (text : String) : String × Nat :=
  match Reading.ofText { dialect := c.dialect } text with
  | .error e => (failure e.message, c.nextNode)
  | .ok reading =>
    let warnings := String.join (reading.warnings.map fun w => "⚠ " ++ w.message ++ "\n")
    let tree := reading.root.renamed nodeName c.nextNode
    let printer : Printer String := { dialect := c.dialect }
    let sql := match printer.write tree with
      | .ok sql => titled "生成的 SQL" sql ++ "\n"
      | .error e => failure e.message
    (warnings ++ titled "过滤树" tree.toJson.pretty ++ sql, c.nextNode + tree.size)

/-! ## The demonstration -/

/-- A query that joins a local table with an external one, on columns of different types. -/
def demonstration : Query where
  tables := [
    { name := "orders"
      schema := none
      source := .ownEngine
      columns := [⟨"id", "INTEGER"⟩, ⟨"customer_id", "INTEGER"⟩, ⟨"total", "DECIMAL(10,2)"⟩] },
    { name := "customers"
      schema := none
      source := .external ⟨"c1", "sales", "mysql"⟩
      columns := [⟨"id", "VARCHAR(36)"⟩, ⟨"name", "VARCHAR(255)"⟩, ⟨"active", "tinyint(1)"⟩] }]
  joins := [⟨.inner, [⟨.column ⟨"orders", "customer_id"⟩, .eq, .column ⟨"customers", "id"⟩⟩]⟩]
  filter := ⟨"root", .and, [
    .condition "active"
      ⟨"customers", "active", .eq, some (.single (.boolean true)), none, .on⟩,
    .condition "total"
      ⟨"orders", "total", .ge, some (.single (.integer 100)), none, .atWhere⟩]⟩
  columns := [("orders", ["id", "total"]), ("customers", ["name"])]

def verdictTitle : Verdict → String
  | .compatible => "Compatible"
  | .castable => "Castable"
  | .unsound => "Unsafe"

def conflictLine (c : Conflict) : String :=
  "⚠ 类型冲突 " ++ c.key.message ++ ": " ++ c.leftType ++ " vs " ++ c.rightType ++ " ("
    ++ verdictTitle c.verdict ++ ", 推荐转换为 " ++ c.recommended.getD "-" ++ ")\n"

/-- The plan of the demonstration before and after its conflicts are decided; an exit code if there
is no plan. -/
def demonstrate (settings : Settings) : String × Option UInt32 :=
  let session : Session := { settings }
  match session.build demonstration with
  | (.error _, _) => ("", some 1)
  | (.ok before, session) =>
    let attached := Json.array (before.attached.map Attachment.toJson)
    let first := titled "生成的 SQL" before.sql ++ titled "附加数据库" attached.pretty
      ++ String.join (before.unresolved.map conflictLine)
    match ({ session with log := session.log.acceptDefaults }).build demonstration with
    | (.error _, _) => (first, some 1)
    | (.ok after, _) =>
      let verdict := "可执行: " ++ (if after.isExecutable then "true" else "false") ++ "\n\n"
      (first ++ titled "接受推荐转换后的 SQL" after.sql ++ verdict, none)

/-! ## Lines -/

/-- The answer to a command, and how the console goes on; without a command it does nothing. -/
def obey (c : Console) (command : Option Command) : String × Next :=
  match command with
  | none => ("", .proceed c)
  | some .quit => ("", .exit 0)
  | some (.setDialect name) =>
    match Dialect.ofText name with
    | .ok d => ("✅ 方言已切换为 " ++ d.name ++ "\n", .proceed { c with dialect := d })
    | .error e => (failure e.message, .proceed c)
  | some .demonstrate =>
    match demonstrate c.settings with
    | (out, none) => (out, .proceed c)
    | (out, some code) => (out, .exit code)
  | some (.readFilter text) =>
    let (out, nextNode) := c.answer text
    (out, .proceed { c with nextNode })

/-- The exit code when a backspace would cut a character. -/
def cutCode : UInt32 := 101

def step (c : Console) (line : String) : String × Next :=
  match typed? line with
  | none => ("", .exit cutCode)
  | some input => c.obey (Command.ofLine? input)

/-- The console at its start. Settings that cannot be loaded are the defaults. -/
def start (file : Settings.File) : Console :=
  let settings : Settings := match file.load with
    | .ok s => s
    | .error _ => {}
  ⟨settings, settings.dialect, 1⟩

/-- The answers to lines, and the exit code. The end of the lines ends the console. -/
def runFrom (c : Console) : List String → String × UInt32
  | [] => ("", 0)
  | line :: lines =>
    match c.step line with
    | (out, .exit code) => (out, code)
    | (out, .proceed c) =>
      let (more, code) := c.runFrom lines
      (out ++ more, code)

def run (file : Settings.File) (input : String) : String × UInt32 :=
  let (out, code) := (start file).runFrom (lines input)
  (greeting ++ out, code)

end Console

end SqlFilter
