import OmniSense.Library.Blocks
import OmniSense.Library.Effect
import OmniSense.Models.Common
import Mathlib.Data.List.Infix
import Mathlib.Data.String.Basic
import Mathlib.Logic.Function.Iterate

/-! `graph/schema/migrator.py`: version files, the singleton that records which of them were applied,
and the two ways to apply them. -/

namespace OmniSense.Schema
open Library

/-! ## Errors -/

inductive MigrationError
  | noDirectory
  | undecodable (name : String)
  | badFilename (name : String)
  | duplicateVersion (version : ℕ) (first second : String)
  | unterminatedComment
  | unterminatedLiteral (quote : Char)
  | severalNodes (ids : List String)
  | driftedArrays (versions checksums appliedAt durationsMs : ℕ)
  | missingFile (version : ℕ)
  | changedFile (name recorded onDisk : String)
  | stragglers (names : List String) (highest : ℕ)
  | noStatements (name : String)
  | statementFailed (name : String) (index total : ℕ) (statement : String)
  -- An exception of the runner that is passed on as it is.
  | runnerFailed
  deriving DecidableEq, Repr

/-! ## Version files -/

/-- `text.find("*/", i)`, as the text behind what it finds. -/
@[grind =] def afterBlockComment : List Char → Option (List Char)
  | '*' :: '/' :: rest => some rest
  | _ :: rest => afterBlockComment rest
  | [] => none

def flush (current : List Char) : List String :=
  let statement := strip (String.ofList current)
  if statement = "" then [] else [statement]

def QUOTES : List Char := ['\x27', '\x22', '\x60']

/-- The scanner of `split_statements`; each round takes at least one character. -/
@[grind =] def splitFrom : ℕ → Option Char → List Char → List String → List Char →
    Except MigrationError (List String)
  | _, some quote, _, _, [] => .error (.unterminatedLiteral quote)
  | _, none, current, statements, [] => .ok (statements ++ flush current)
  | 0, _, _, statements, _ :: _ => .ok statements
  | fuel + 1, some quote, current, statements, char :: rest =>
    match char, rest with
    | '\x5c', escaped :: rest =>
      splitFrom fuel (some quote) (current ++ [char, escaped]) statements rest
    | _, _ =>
      splitFrom fuel (if char = quote then none else some quote) (current ++ [char]) statements
        rest
  | fuel + 1, none, current, statements, char :: rest =>
    if char ∈ QUOTES then
      splitFrom fuel (some char) (current ++ [char]) statements rest
    else if char = '/' ∧ rest.head? = some '/' then
      splitFrom fuel none current statements (rest.dropWhile (· ≠ '\n'))
    else if char = '/' ∧ rest.head? = some '*' then
      match afterBlockComment rest.tail with
      | none => .error .unterminatedComment
      | some rest => splitFrom fuel none current statements rest
    else if char = ';' then splitFrom fuel none [] (statements ++ flush current) rest
    else splitFrom fuel none (current ++ [char]) statements rest

def splitStatements (text : String) : Except MigrationError (List String) :=
  splitFrom text.length none [] [] text.toList

def normalised : List Char → List Char
  | '\r' :: '\n' :: rest => '\n' :: normalised rest
  | '\r' :: rest => '\n' :: normalised rest
  | char :: rest => char :: normalised rest
  | [] => []

/-- A `(:_SchemaVersion)` node, with its parallel arrays. -/
structure SchemaVersion where
  id : String
  versions : List ℕ
  checksums : List String
  appliedAt : List ℤ
  durationsMs : List ℕ
  currentVersion : ℕ
  deriving DecidableEq, Repr

/-- What the migrator is built on: the hash, the characters that the `\d` of file names matches, the
identity of the singleton, and what a statement does to the nodes of the singleton's label. -/
structure Env where
  sha256 : String → String
  decimal : Char → Option ℕ
  nodeId : String
  effect : String → List SchemaVersion → List SchemaVersion

structure VersionFile where
  version : ℕ
  slug : String
  name : String
  text : String
  deriving DecidableEq, Repr

variable (env : Env)

def checksumOf (text : String) : String :=
  env.sha256 (String.ofList (normalised text.toList))

def VersionFile.checksum (file : VersionFile) : String := checksumOf env file.text

def VersionFile.statements (file : VersionFile) : Except MigrationError (List String) :=
  splitStatements file.text

structure PathEntry where
  name : String
  isFile : Bool
  text : Option String
  deriving DecidableEq, Repr

/-- `_VERSION_FILENAME`: the number and the slug of `vNNN_slug.cypher`. -/
def parseFilename (name : String) : Option (ℕ × String) :=
  match name.toList with
  | 'v' :: a :: b :: c :: '_' :: rest =>
    let slug := rest.take (rest.length - ".cypher".length)
    let isSlug := fun char : Char => char.isLower ∨ char.isDigit ∨ char = '_'
    if slug ≠ [] ∧ slug.all isSlug ∧ rest.drop slug.length = ".cypher".toList then do
      let a ← env.decimal a
      let b ← env.decimal b
      let c ← env.decimal c
      return (100 * a + 10 * b + c, String.ofList slug)
    else none
  | _ => none

/-- One round of the loop of `discover_versions`. -/
def discoverEntry (files : List VersionFile) (path : PathEntry) :
    Except MigrationError (List VersionFile) :=
  if path.name.toList.head? = some '.' ∨ ¬ path.isFile ∨
      ¬ ".cypher".toList <:+ path.name.toList then .ok files
  else
    match parseFilename env path.name with
    | none => .error (.badFilename path.name)
    | some (version, slug) =>
      match files.find? (·.version = version) with
      | some file => .error (.duplicateVersion version file.name path.name)
      | none =>
        match path.text with
        | none => .error (.undecodable path.name)
        | some text => .ok (files ++ [⟨version, slug, path.name, text⟩])

abbrev Directory := Option (List PathEntry)

def discoverVersions : Directory → Except MigrationError (List VersionFile)
  | none => .error .noDirectory
  | some entries => do
    let files ← (sortedBy PathEntry.name entries).foldlM (discoverEntry env) []
    return sortedBy VersionFile.version files

/-! ## The recorded history -/

structure AppliedVersion where
  version : ℕ
  checksum : String
  appliedAt : ℤ
  durationMs : ℕ
  deriving DecidableEq, Repr

/-- The nodes of the singleton's label, and a trace of the statements that committed, each with the
version it was run for. -/
structure Database where
  nodes : List SchemaVersion
  trace : List (ℕ × String)

/-- `_RECORD_VERSION`, committed once. -/
def recordVersion (record : AppliedVersion) (db : Database) : Database :=
  let note := fun node : SchemaVersion =>
    if record.version ∈ node.versions then { node with currentVersion := record.version }
    else { node with
      versions := node.versions ++ [record.version]
      checksums := node.checksums ++ [record.checksum]
      appliedAt := node.appliedAt ++ [record.appliedAt]
      durationsMs := node.durationsMs ++ [record.durationMs]
      currentVersion := record.version }
  if db.nodes.any (·.id = env.nodeId) then
    { db with nodes := db.nodes.map fun node => if node.id = env.nodeId then note node else node }
  else { db with nodes := db.nodes ++ [note ⟨env.nodeId, [], [], [], [], 0⟩] }

def SchemaVersion.parseRecord (node : SchemaVersion) :
    Except MigrationError (List AppliedVersion) :=
  if node.checksums.length = node.versions.length ∧ node.appliedAt.length = node.versions.length ∧
      node.durationsMs.length = node.versions.length then
    .ok ((node.versions.zip (node.checksums.zip (node.appliedAt.zip node.durationsMs))).map
      fun (version, checksum, appliedAt, durationMs) =>
        ⟨version, checksum, appliedAt, durationMs⟩)
  else
    .error (.driftedArrays node.versions.length node.checksums.length node.appliedAt.length
      node.durationsMs.length)

def parseRows : List SchemaVersion → Except MigrationError (List AppliedVersion)
  | [] => .ok []
  | [node] => node.parseRecord
  | nodes => .error (.severalNodes (sortedBy id (nodes.map SchemaVersion.id)))

def checkRecord (onDisk : List VersionFile) (record : AppliedVersion) :
    Except MigrationError Unit :=
  match onDisk.find? (·.version = record.version) with
  | none => .error (.missingFile record.version)
  | some file =>
    if file.checksum env = record.checksum then .ok ()
    else .error (.changedFile file.name record.checksum (file.checksum env))

def checkConsistency (onDisk : List VersionFile) (applied : List AppliedVersion) :
    Except MigrationError Unit := do
  applied.forM (checkRecord env onDisk)
  match (applied.map AppliedVersion.version).max? with
  | none => return
  | some highest =>
    let stragglers := onDisk.filter fun file =>
      file.version < highest ∧ file.version ∉ applied.map AppliedVersion.version
    if stragglers ≠ [] then throw (.stragglers (stragglers.map VersionFile.name) highest)

/-! ## Applying versions -/

/-- How one call of the runner for a write goes. The transaction may commit and be run again, also
when the call raises in the end. -/
inductive Sent
  | returned (repeats : ℕ)
  | raised (commits : ℕ)

structure Faults where
  reads : Bool
  statement : ℕ → ℕ → Sent
  record : ℕ → Sent
  appliedAt : ℕ → ℤ
  durationMs : ℕ → ℕ

structure MigrationResult where
  applied : List ℕ
  skipped : List ℕ
  deriving DecidableEq, Repr

abbrev Migrate := Effect Database MigrationError

def ofExcept {α : Type} : Except MigrationError α → Migrate α
  | .ok a => pure a
  | .error e => throw e

def send (commit : Database → Database) (error : MigrationError) : Sent → Migrate Unit
  | .returned repeats => modify commit^[repeats + 1]
  | .raised commits => do
    modify commit^[commits]
    throw error

def runStatement (version : ℕ) (statement : String) (db : Database) : Database :=
  ⟨env.effect statement db.nodes, db.trace ++ [(version, statement)]⟩

/-- The loop of `_apply_one` over the statements, from number `index` on. -/
def runStatements (env : Env) (world : Faults) (file : VersionFile) (total : ℕ) :
    ℕ → List String → Migrate Unit
  | _, [] => pure ()
  | index, statement :: rest => do
    send (runStatement env file.version statement)
      (.statementFailed file.name index total statement) (world.statement file.version index)
    runStatements env world file total (index + 1) rest

def applyOne (world : Faults) (file : VersionFile) : Migrate Unit := do
  let statements ← ofExcept file.statements
  if statements = [] then throw (.noStatements file.name)
  else
    runStatements env world file statements.length 1 statements
    send (recordVersion env ⟨file.version, file.checksum env, world.appliedAt file.version,
      world.durationMs file.version⟩) .runnerFailed (world.record file.version)

def appliedVersions (world : Faults) : Migrate (List AppliedVersion) := do
  if world.reads then
    let db ← get
    ofExcept (parseRows db.nodes)
  else throw .runnerFailed

/-- The loop of `apply_all` over the files on disk. -/
def applyPending (env : Env) (world : Faults) (already : List ℕ) :
    MigrationResult → List VersionFile → Migrate MigrationResult
  | result, [] => pure result
  | result, file :: rest =>
    if file.version ∈ already then
      applyPending env world already
        { result with skipped := result.skipped ++ [file.version] } rest
    else do
      applyOne env world file
      applyPending env world already
        { result with applied := result.applied ++ [file.version] } rest

def applyAll (dir : Directory) (world : Faults) : Migrate MigrationResult := do
  let onDisk ← ofExcept (discoverVersions env dir)
  let applied ← appliedVersions world
  ofExcept (checkConsistency env onDisk applied)
  applyPending env world (applied.map AppliedVersion.version) ⟨[], []⟩ onDisk

def apply (dir : Directory) (world : Faults) (file : VersionFile) : Migrate Bool := do
  let applied ← appliedVersions world
  let onDisk ← ofExcept (discoverVersions env dir)
  ofExcept (checkConsistency env onDisk applied)
  if file.version ∈ applied.map AppliedVersion.version then return false
  else
    applyOne env world file
    return true

end OmniSense.Schema
