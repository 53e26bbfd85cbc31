import OmniSense.Schema.Migrator
import Mathlib.Tactic.Linarith

/-! The recorded history of a graph schema. Versions applied from the bottom up leave a history that
is a prefix of the version files, each of them run in full. -/

namespace OmniSense.Schema
open Library Effect List Function Triple VersionFile

variable {env : Env} {dir : Directory} {world : Faults} {db db' start : Database}
  {file : VersionFile} {files done rest : List VersionFile}

/-! ## Version files on disk -/

def onDisk (env : Env) (dir : Directory) : List VersionFile :=
  (discoverVersions env dir).toOption.getD []

theorem discoverEntry_nodup {path : PathEntry} {found : List VersionFile}
    (hfiles : (files.map version).Nodup)
    (h : discoverEntry env files path = .ok found) : (found.map version).Nodup := by
  unfold discoverEntry at h
  split_ifs at h
  · cases h
    exact hfiles
  · split at h
    · cases h
    · next version slug _ =>
      split at h
      · cases h
      · next hfresh =>
        split at h
        · cases h
        · cases h
          rw [map_append, nodup_append]
          refine ⟨hfiles, nodup_singleton _, fun old hold new hnew => ?_⟩
          obtain ⟨other, hother, rfl⟩ := mem_map.mp hold
          rw [mem_singleton.mp hnew]
          simpa using List.find?_eq_none.mp hfresh other hother

theorem discoverFold_nodup {paths : List PathEntry} {found : List VersionFile}
    (hfiles : (files.map version).Nodup)
    (h : paths.foldlM (discoverEntry env) files = .ok found) :
    (found.map version).Nodup := by
  induction paths generalizing files with
  | nil =>
    cases h
    exact hfiles
  | cons path paths ih =>
    rw [foldlM_cons] at h
    obtain ⟨next, hnext, hrest⟩ := ok_of_bind h
    exact ih (discoverEntry_nodup hfiles hnext) hrest

theorem onDisk_strict : (onDisk env dir).Pairwise fun a b => a.version < b.version := by
  unfold onDisk
  cases hfound : discoverVersions env dir with
  | error e => exact .nil
  | ok found =>
    cases dir with
    | none => cases hfound
    | some entries =>
      obtain ⟨unsorted, hfold, hsorted⟩ := ok_of_bind hfound
      cases hsorted
      have hnone : (([] : List VersionFile).map version).Nodup := nodup_nil
      exact sortedBy_strict (discoverFold_nodup hnone hfold)

/-! ## The history -/

def recorded (db : Database) : List ℕ := db.nodes.flatMap SchemaVersion.versions

/-- The statements that committed while `version` was applied. -/
def ranFor (version : ℕ) (db : Database) : List String :=
  (db.trace.filter fun entry => entry.1 = version).map Prod.snd

def Executed (db : Database) (file : VersionFile) : Prop :=
  ∃ statements, file.statements = .ok statements ∧
    statements.Sublist (ranFor file.version db)

/-- The singleton records exactly `done`; before the first version there is none. -/
def Records (env : Env) (done : List VersionFile) (nodes : List SchemaVersion) : Prop :=
  (nodes = [] ∧ done = []) ∨
    ∃ node, nodes = [node] ∧ node.id = env.nodeId ∧
      node.versions = done.map version ∧
      node.checksums = done.map (checksum env) ∧
      node.appliedAt.length = done.length ∧ node.durationsMs.length = done.length

/-- The recorded history is `done`, and each of it was run in full. -/
structure History (env : Env) (done : List VersionFile) (db : Database) : Prop where
  records : Records env done db.nodes
  executed : ∀ file ∈ done, Executed db file

variable {nodes : List SchemaVersion}

theorem Records.versions (h : Records env done nodes) :
    nodes.flatMap SchemaVersion.versions = done.map version := by
  rcases h with ⟨rfl, rfl⟩ | ⟨node, rfl, _, hversions, _⟩
  · rfl
  · rw [flatMap_singleton, hversions]

theorem Executed.mono (h : Executed db file) (htrace : db.trace <+: db'.trace) :
    Executed db' file := by
  obtain ⟨statements, hstatements, hran⟩ := h
  refine ⟨statements, hstatements, hran.trans ?_⟩
  exact (htrace.sublist.filter _).map _

theorem History.mono (h : History env done db) (hnodes : db'.nodes = db.nodes)
    (htrace : db.trace <+: db'.trace) : History env done db' := by
  refine ⟨?_, fun file hfile => (h.executed file hfile).mono htrace⟩
  rw [hnodes]
  exact h.records

/-! ## Recording a version -/

theorem recordVersion_trace (record : AppliedVersion) :
    (recordVersion env record db).trace = db.trace := by
  unfold recordVersion
  split_ifs <;> rfl

theorem Records.record {appliedAt : ℤ} {durationMs : ℕ} (h : Records env done db.nodes)
    (hfresh : file.version ∉ done.map version) :
    Records env (done ++ [file]) (recordVersion env
      ⟨file.version, file.checksum env, appliedAt, durationMs⟩ db).nodes := by
  rcases h with ⟨hnodes, rfl⟩ | ⟨node, hnodes, hid, hversions, hchecksums, happlied, hdurations⟩
  · refine .inr ⟨⟨env.nodeId, [file.version], [file.checksum env], [appliedAt], [durationMs],
      file.version⟩, ?_, rfl, rfl, rfl, rfl, rfl⟩
    unfold recordVersion
    simp [hnodes]
  · refine .inr ⟨⟨env.nodeId, node.versions ++ [file.version], node.checksums ++ [file.checksum env],
      node.appliedAt ++ [appliedAt], node.durationsMs ++ [durationMs], file.version⟩,
      ?_, rfl, ?_, ?_, ?_, ?_⟩
    · rw [← hversions] at hfresh
      unfold recordVersion
      simp [hnodes, hid, hfresh]
    · rw [hversions, map_append, map_singleton]
    · rw [hchecksums, map_append, map_singleton]
    · rw [length_append, length_append, happlied]
      rfl
    · rw [length_append, length_append, hdurations]
      rfl

theorem Records.record_again {record : AppliedVersion} (h : Records env done db.nodes)
    (hknown : record.version ∈ done.map version) :
    Records env done (recordVersion env record db).nodes := by
  rcases h with ⟨hnodes, rfl⟩ | ⟨node, hnodes, hid, hversions, hrest⟩
  · cases hknown
  · refine .inr ⟨{ node with currentVersion := record.version }, ?_, hid, hversions, hrest⟩
    rw [← hversions] at hknown
    unfold recordVersion
    simp [hnodes, hid, hknown]

theorem iterate_trace (record : AppliedVersion) (n : ℕ) :
    ((recordVersion env record)^[n] db).trace = db.trace := by
  induction n with
  | zero => rfl
  | succ n ih => rw [iterate_succ_apply', recordVersion_trace, ih]

theorem Records.iterate {appliedAt : ℤ} {durationMs : ℕ} (h : Records env done db.nodes)
    (hfresh : file.version ∉ done.map version) (n : ℕ) :
    Records env (done ++ [file]) ((recordVersion env
      ⟨file.version, file.checksum env, appliedAt, durationMs⟩)^[n + 1] db).nodes := by
  induction n with
  | zero => exact h.record hfresh
  | succ n ih =>
    rw [iterate_succ_apply']
    refine ih.record_again ?_
    rw [map_append]
    exact mem_append_right _ (mem_singleton_self _)

/-! ## Running a file -/

theorem iterate_runStatement {version : ℕ} {statement : String}
    (hquiet : ∀ nodes, env.effect statement nodes = nodes) (n : ℕ) :
    (runStatement env version statement)^[n] db =
      ⟨db.nodes, db.trace ++ List.replicate n (version, statement)⟩ := by
  induction n with
  | zero => simp
  | succ n ih =>
    rw [iterate_succ_apply', ih, replicate_succ', ← append_assoc]
    unfold runStatement
    rw [hquiet]

def Ran (start db : Database) : Prop := db.nodes = start.nodes ∧ start.trace <+: db.trace

theorem Ran.iterate {version : ℕ} {statement : String} (h : Ran start db)
    (hquiet : ∀ nodes, env.effect statement nodes = nodes) (n : ℕ) :
    Ran start ((runStatement env version statement)^[n] db) := by
  rw [iterate_runStatement hquiet]
  exact ⟨h.1, h.2.trans (prefix_append _ _)⟩

theorem ranFor_iterate {version : ℕ} {statement : String}
    (hquiet : ∀ nodes, env.effect statement nodes = nodes) (n : ℕ) :
    ranFor version ((runStatement env version statement)^[n] db) =
      ranFor version db ++ List.replicate n statement := by
  rw [iterate_runStatement hquiet]
  unfold ranFor
  simp

theorem send_triple {P : Database → Prop} {Q : Unit → Database → Prop} {E : Database → Prop}
    {commit : Database → Database} {error : MigrationError} (call : Sent)
    (hreturn : ∀ db n, P db → Q ⟨⟩ (commit^[n + 1] db))
    (hraise : ∀ db n, P db → E (commit^[n] db)) : Triple P (send commit error call) Q E := by
  cases call with
  | returned repeats => exact update fun db hdb => hreturn db repeats hdb
  | raised commits =>
    exact bind (update fun db hdb => hraise db commits hdb)
      fun _ => raise fun db hdb => hdb

theorem runStatements_triple {total : ℕ} (index : ℕ) (before : List String)
    {statements : List String}
    (hquiet : ∀ statement ∈ statements, ∀ nodes, env.effect statement nodes = nodes) :
    Triple (fun db => Ran start db ∧ before.Sublist (ranFor file.version db))
      (runStatements env world file total index statements)
      (fun _ db => Ran start db ∧ (before ++ statements).Sublist (ranFor file.version db))
      (Ran start) := by
  -- The statements of a file run in order, and where one fails nothing but the trace has moved.
  induction statements generalizing index before with
  | nil =>
    refine ret fun db hdb => ?_
    rw [append_nil]
    exact hdb
  | cons statement rest ih =>
    have hfirst := hquiet statement mem_cons_self
    have hrest := ih (index + 1) (before ++ [statement])
      fun other hother => hquiet other (mem_cons_of_mem _ hother)
    rw [append_assoc, singleton_append] at hrest
    refine bind (send_triple _ (fun db n hdb => ⟨hdb.1.iterate hfirst _, ?_⟩)
      fun db n hdb => hdb.1.iterate hfirst n) fun _ => hrest
    rw [ranFor_iterate hfirst, replicate_succ]
    exact hdb.2.append (singleton_sublist.mpr mem_cons_self)

def Quiet (env : Env) (file : VersionFile) : Prop :=
  ∀ statements, file.statements = .ok statements → ∀ statement ∈ statements,
    ∀ nodes, env.effect statement nodes = nodes

theorem ofExcept_triple {α : Type} {P : Database → Prop} {Q : α → Database → Prop}
    {E : Database → Prop} {x : Except MigrationError α}
    (hok : ∀ a, x = .ok a → ∀ db, P db → Q a db) (herror : ∀ db, P db → E db) :
    Triple P (ofExcept x) Q E := by
  cases x with
  | ok a => exact ret (hok a rfl)
  | error e => exact raise herror

/-- The history is `done`, or the file was recorded behind it. -/
def Appended (env : Env) (done : List VersionFile) (file : VersionFile) (db : Database) : Prop :=
  History env done db ∨ History env (done ++ [file]) db

theorem applyOne_triple (hquiet : Quiet env file)
    (hfresh : file.version ∉ done.map version) :
    Triple (History env done) (applyOne env world file)
      (fun _ => History env (done ++ [file])) (Appended env done file) := by
  -- Applying a fresh file appends it to the history, or fails and leaves it, or fails after the
  -- record was written.
  refine of_state fun start hstart => ?_
  refine bind (Q := fun statements db =>
    db = start ∧ file.statements = .ok statements) ?_ fun statements => ?_
  · refine ofExcept_triple (fun statements hok db hdb => ⟨hdb, hok⟩) fun db hdb => ?_
    exact .inl (hdb ▸ hstart)
  split_ifs
  · exact raise fun db hdb => .inl (hdb.1 ▸ hstart)
  by_cases hstatements : file.statements = .ok statements
  · have hran : Triple (fun db => db = start ∧ file.statements = .ok statements)
        (runStatements env world file statements.length 1 statements)
        (fun _ db => Ran start db ∧ statements.Sublist (ranFor file.version db))
        (Appended env done file) := by
      have hloop : Triple (fun db => Ran start db ∧ [].Sublist (ranFor file.version db))
          (runStatements env world file statements.length 1 statements)
          (fun _ db => Ran start db ∧ ([] ++ statements).Sublist (ranFor file.version db))
          (Ran start) := runStatements_triple 1 [] (hquiet statements hstatements)
      refine hloop.weaken ?_ (fun _ db hdb => hdb) fun db hdb => .inl (hstart.mono hdb.1 hdb.2)
      rintro db ⟨rfl, _⟩
      exact ⟨⟨rfl, prefix_refl _⟩, nil_sublist _⟩
    have hrecord : ∀ db n, Ran start db ∧ statements.Sublist (ranFor file.version db) →
        History env (done ++ [file]) ((recordVersion env ⟨file.version, file.checksum env,
          world.appliedAt file.version, world.durationMs file.version⟩)^[n + 1] db) := by
      rintro db n ⟨hrun, hsub⟩
      have hbefore := hstart.mono hrun.1 hrun.2
      refine ⟨hbefore.records.iterate hfresh n, fun other hother => ?_⟩
      unfold Executed ranFor
      rw [iterate_trace]
      rcases mem_append.mp hother with hold | hnew
      · exact hbefore.executed other hold
      · rw [mem_singleton.mp hnew]
        exact ⟨statements, hstatements, hsub⟩
    refine bind hran fun _ => send_triple _ hrecord fun db n hdb => ?_
    cases n with
    | zero => exact .inl (hstart.mono hdb.1.1 hdb.1.2)
    | succ n => exact .inr (hrecord db n hdb)
  · exact fun db hdb => absurd hdb.2 hstatements

/-! ## The two entry points -/

def Prefix (env : Env) (files : List VersionFile) (db : Database) : Prop :=
  ∃ done, done <+: files ∧ History env done db

theorem Prefix.of_appended (h : Appended env done file db)
    (hfiles : done ++ file :: rest = files) : Prefix env files db := by
  rcases h with hbefore | hafter
  · exact ⟨done, ⟨_, hfiles⟩, hbefore⟩
  · refine ⟨done ++ [file], ⟨rest, ?_⟩, hafter⟩
    rw [append_assoc]
    exact hfiles

def RecordOf (env : Env) (record : AppliedVersion) (file : VersionFile) : Prop :=
  record.version = file.version ∧ record.checksum = file.checksum env

theorem forall₂_recordOf {applied : List AppliedVersion}
    (hversions : applied.map AppliedVersion.version = done.map version)
    (hchecksums : applied.map AppliedVersion.checksum = done.map (checksum env)) :
    List.Forall₂ (RecordOf env) applied done := by
  induction applied generalizing done with
  | nil =>
    cases done with
    | nil => exact .nil
    | cons file done => cases hversions
  | cons record applied ih =>
    cases done with
    | nil => cases hversions
    | cons file done =>
      obtain ⟨hversion, hversions⟩ := List.cons.inj hversions
      obtain ⟨hchecksum, hchecksums⟩ := List.cons.inj hchecksums
      exact .cons ⟨hversion, hchecksum⟩ (ih hversions hchecksums)

theorem RecordOf.versions {applied : List AppliedVersion}
    (h : List.Forall₂ (RecordOf env) applied done) :
    applied.map AppliedVersion.version = done.map version := by
  induction h with
  | nil => rfl
  | cons hrecord _ ih => rw [map_cons, map_cons, hrecord.1, ih]

theorem parseRows_records (h : Records env done nodes) :
    ∃ applied, parseRows nodes = .ok applied ∧ List.Forall₂ (RecordOf env) applied done := by
  rcases h with ⟨rfl, rfl⟩ | ⟨node, rfl, _, hversions, hchecksums, happlied, hdurations⟩
  · exact ⟨[], rfl, .nil⟩
  · have hlength : node.versions.length = done.length := by rw [hversions, length_map]
    have hchecklength : node.checksums.length = done.length := by rw [hchecksums, length_map]
    have hsame : node.checksums.length = node.versions.length ∧
        node.appliedAt.length = node.versions.length ∧
        node.durationsMs.length = node.versions.length := by omega
    have htail : (node.appliedAt.zip node.durationsMs).length = done.length := by
      rw [length_zip]
      omega
    have hchecks : (node.checksums.zip (node.appliedAt.zip node.durationsMs)).length =
        done.length := by
      rw [length_zip]
      omega
    refine ⟨_, if_pos hsame, forall₂_recordOf ?_ ?_⟩
    · rw [map_map, ← hversions]
      exact map_fst_zip (by omega)
    · rw [map_map, ← hchecksums]
      calc _ = ((node.versions.zip (node.checksums.zip
            (node.appliedAt.zip node.durationsMs))).map Prod.snd).map Prod.fst := by
            rw [map_map]
            rfl
        _ = (node.checksums.zip (node.appliedAt.zip node.durationsMs)).map Prod.fst := by
            rw [map_snd_zip (by omega)]
        _ = node.checksums := map_fst_zip (by omega)

theorem checkRecord_ok {record : AppliedVersion}
    (hstrict : files.Pairwise fun a b => a.version < b.version) (hfile : file ∈ files)
    (hrecord : RecordOf env record file) : checkRecord env files record = .ok () := by
  unfold checkRecord
  have hnodup : (files.map version).Nodup :=
    pairwise_map.mpr (hstrict.imp fun h => ne_of_lt h)
  cases hfound : files.find? (·.version = record.version) with
  | none =>
    have hnone := List.find?_eq_none.mp hfound file hfile
    simp [hrecord.1] at hnone
  | some other =>
    have hversion : other.version = record.version := by
      simpa using List.find?_some hfound
    have hother : other = file := inj_on_of_nodup_map hnodup
      (mem_of_find?_eq_some hfound) hfile (hversion.trans hrecord.1)
    rw [hother]
    exact if_pos hrecord.2.symm

theorem checkConsistency_ok {applied : List AppliedVersion}
    (hstrict : files.Pairwise fun a b => a.version < b.version) (hfront : done <+: files)
    (h : List.Forall₂ (RecordOf env) applied done) :
    checkConsistency env files applied = .ok () := by
  have hrecords : applied.forM (checkRecord env files) = .ok () := by
    have hsub : ∀ file ∈ done, file ∈ files := fun file hfile => hfront.subset hfile
    clear hfront
    induction h with
    | nil => rfl
    | cons hrecord _ ih =>
      have hfirst := checkRecord_ok hstrict (hsub _ mem_cons_self) hrecord
      change checkRecord env files _ >>= (fun _ => List.forM _ (checkRecord env files)) = _
      rw [hfirst]
      exact ih fun file hfile => hsub file (mem_cons_of_mem _ hfile)
  have hversions := RecordOf.versions h
  unfold checkConsistency
  rw [hrecords, hversions]
  cases hmax : (done.map version).max? with
  | none => rfl
  | some highest =>
    have hnone : (files.filter fun file => decide (file.version < highest ∧
        file.version ∉ done.map version)) = [] := by
      rw [filter_eq_nil_iff]
      intro file hfile hstraggles
      obtain ⟨hlower, habsent⟩ := of_decide_eq_true hstraggles
      obtain ⟨top, htop, rfl⟩ := mem_map.mp (List.max?_mem hmax)
      obtain ⟨rest, rfl⟩ := hfront
      rcases mem_append.mp hfile with hdone | hrest
      · exact habsent (mem_map_of_mem hdone)
      · have habove := (pairwise_append.mp hstrict).2.2 top htop file hrest
        exact absurd hlower (Nat.lt_asymm habove)
    dsimp only
    rw [hnone]
    rfl

theorem History.applied {applied : List AppliedVersion} (h : History env done db)
    (hread : parseRows db.nodes = .ok applied) (hfront : done <+: onDisk env dir) :
    checkConsistency env (onDisk env dir) applied = .ok () ∧
      applied.map AppliedVersion.version = done.map version := by
  obtain ⟨applied', hread', hmatch⟩ := parseRows_records h.records
  rw [hread] at hread'
  cases hread'
  exact ⟨checkConsistency_ok onDisk_strict hfront hmatch, RecordOf.versions hmatch⟩

theorem fresh_of_strict (hstrict : (done ++ rest).Pairwise fun a b => a.version < b.version)
    (hfile : file ∈ rest) : file.version ∉ done.map version := by
  intro hold
  obtain ⟨other, hother, hversion⟩ := mem_map.mp hold
  have hbelow := (pairwise_append.mp hstrict).2.2 other hother file hfile
  omega

theorem applyPending_skip {already : List ℕ} {result : MigrationResult}
    (h : ∀ file ∈ done, file.version ∈ already) :
    ∃ result', applyPending env world already result (done ++ rest) =
      applyPending env world already result' rest := by
  induction done generalizing result with
  | nil => exact ⟨result, rfl⟩
  | cons file done ih =>
    obtain ⟨hfile, hdone⟩ := forall_mem_cons.mp h
    rw [cons_append, applyPending, if_pos hfile]
    exact ih hdone

theorem applyPending_triple {already : List ℕ} {result : MigrationResult}
    (hfiles : done ++ rest = files) (hquiet : ∀ file ∈ rest, Quiet env file)
    (hstrict : files.Pairwise fun a b => a.version < b.version)
    (hfresh : ∀ file ∈ rest, file.version ∉ already) :
    Triple (History env done) (applyPending env world already result rest)
      (fun _ => Prefix env files) (Prefix env files) := by
  -- The pending files are appended one by one, up to the one that fails.
  induction rest generalizing done result with
  | nil =>
    refine ret fun db hdb => ⟨done, ?_, hdb⟩
    rw [← hfiles, append_nil]
  | cons file rest ih =>
    obtain ⟨hfile, hrest⟩ := forall_mem_cons.mp hquiet
    obtain ⟨hfilefresh, hrestfresh⟩ := forall_mem_cons.mp hfresh
    have hnew : file.version ∉ done.map version :=
      fresh_of_strict (hfiles ▸ hstrict) mem_cons_self
    unfold applyPending
    rw [if_neg hfilefresh]
    refine bind ((applyOne_triple hfile hnew).weaken (fun _ h => h) (fun _ _ h => h)
      fun db hdb => Prefix.of_appended hdb hfiles) fun _ => ?_
    refine ih ?_ hrest hrestfresh
    rw [append_assoc]
    exact hfiles

section

variable {P E : Database → Prop}

theorem appliedVersions_triple (herror : ∀ db, P db → E db) :
    Triple P (appliedVersions world)
      (fun applied db => P db ∧ parseRows db.nodes = .ok applied) E := by
  unfold appliedVersions
  split_ifs
  · refine of_state fun start hstart => read fun db hdb => ?_
    refine ofExcept_triple (fun applied hok other hother => ?_) fun other hother => ?_
    · rw [hother]
      rw [hdb] at hok
      exact ⟨hstart, hok⟩
    · rw [hother]
      exact herror start hstart
  · exact raise herror

theorem discover_triple (herror : ∀ db, P db → E db) :
    Triple P (ofExcept (discoverVersions env dir))
      (fun found db => P db ∧ found = onDisk env dir) E := by
  refine ofExcept_triple (fun found hok db hdb => ⟨hdb, ?_⟩) herror
  unfold onDisk
  rw [hok]
  rfl

theorem check_triple {found : List VersionFile} {applied : List AppliedVersion}
    (herror : ∀ db, P db → E db) :
    Triple P (ofExcept (checkConsistency env found applied)) (fun _ => P) E :=
  ofExcept_triple (fun _ _ _ hdb => hdb) herror

end

theorem applyAll_keeps (hquiet : ∀ file ∈ onDisk env dir, Quiet env file) :
    Keeps (Prefix env (onDisk env dir)) (applyAll env dir world) := by
  refine bind (discover_triple fun db hdb => hdb) fun found => ?_
  refine bind (appliedVersions_triple fun db hdb => hdb.1) fun applied => ?_
  refine bind (check_triple fun db hdb => hdb.1.1) fun _ => of_state ?_
  rintro start ⟨⟨⟨done, ⟨rest, hfiles⟩, hhistory⟩, rfl⟩, hread⟩
  obtain ⟨_, hversions⟩ := hhistory.applied hread ⟨rest, hfiles⟩
  have hstrict : (onDisk env dir).Pairwise fun a b => a.version < b.version := onDisk_strict
  have hskip : ∃ result, applyPending env world (applied.map AppliedVersion.version) ⟨[], []⟩
      (done ++ rest) =
        applyPending env world (applied.map AppliedVersion.version) result rest :=
    applyPending_skip fun file hfile => hversions ▸ mem_map_of_mem hfile
  obtain ⟨result, hskip⟩ := hskip
  have hrest : ∀ file ∈ rest, Quiet env file :=
    fun file hfile => hquiet file (hfiles ▸ mem_append_right done hfile)
  have hfresh : ∀ file ∈ rest, file.version ∉ applied.map AppliedVersion.version :=
    fun file hfile => hversions ▸ fresh_of_strict (hfiles ▸ hstrict) hfile
  have hrun : Triple (History env done)
      (applyPending env world (applied.map AppliedVersion.version) ⟨[], []⟩ (onDisk env dir))
      (fun _ => Prefix env (onDisk env dir)) (Prefix env (onDisk env dir)) := by
    have hloop := @applyPending_triple _ world _ _ _ _ result hfiles hrest hstrict
      hfresh
    rw [← hskip, hfiles] at hloop
    exact hloop
  exact hrun.weaken (fun db hdb => hdb ▸ hhistory) (fun _ _ hdb => hdb) fun _ hdb => hdb

/-- `apply` on a file whose turn it is: it is recorded already, or next. -/
def Due (env : Env) (dir : Directory) (file : VersionFile) (db : Database) : Prop :=
  file.version ∈ recorded db ∨
    (file ∈ onDisk env dir ∧
      ∀ other ∈ onDisk env dir, other.version < file.version → other.version ∈ recorded db)

theorem History.recorded (h : History env done db) :
    recorded db = done.map version := h.records.versions

theorem Due.next (hdue : Due env dir file db) (hhistory : History env done db)
    (hfiles : done ++ rest = onDisk env dir) (hnew : file.version ∉ done.map version) :
    ∃ later, done ++ file :: later = onDisk env dir := by
  -- A due file that is not recorded is the first one behind the history.
  unfold Due at hdue
  rw [hhistory.recorded] at hdue
  rcases hdue with hold | ⟨hfile, hlower⟩
  · exact absurd hold hnew
  have hstrict : (onDisk env dir).Pairwise fun a b => a.version < b.version := onDisk_strict
  rw [← hfiles] at hfile hlower hstrict
  rcases mem_append.mp hfile with hdone | hrest
  · exact absurd (mem_map_of_mem hdone) hnew
  cases rest with
  | nil => cases hrest
  | cons first later =>
    refine ⟨later, ?_⟩
    rw [← hfiles]
    rcases mem_cons.mp hrest with rfl | hlater
    · rfl
    · have hbelow := (pairwise_cons.mp (pairwise_append.mp hstrict).2.1).1 file hlater
      have hfirst : first ∈ done ++ first :: later :=
        mem_append_right done mem_cons_self
      exact absurd (hlower first hfirst hbelow) (fresh_of_strict hstrict mem_cons_self)

theorem apply_keeps (hquiet : ∀ file ∈ onDisk env dir, Quiet env file) :
    Triple (fun db => Prefix env (onDisk env dir) db ∧ Due env dir file db)
      (apply env dir world file) (fun _ => Prefix env (onDisk env dir))
      (Prefix env (onDisk env dir)) := by
  refine bind (appliedVersions_triple fun db hdb => hdb.1) fun applied => ?_
  refine bind (discover_triple fun db hdb => hdb.1.1) fun found => ?_
  refine bind (check_triple fun db hdb => hdb.1.1.1) fun _ => ?_
  split_ifs with hknown
  · exact ret fun db hdb => hdb.1.1.1
  refine of_state ?_
  rintro start ⟨⟨⟨⟨done, ⟨rest, hfiles⟩, hhistory⟩, hdue⟩, hread⟩, rfl⟩
  obtain ⟨_, hversions⟩ := hhistory.applied hread ⟨rest, hfiles⟩
  rw [hversions] at hknown
  obtain ⟨later, hnext⟩ := hdue.next hhistory hfiles hknown
  have hfile : file ∈ onDisk env dir :=
    hnext ▸ mem_append_right done mem_cons_self
  refine bind ((applyOne_triple (hquiet file hfile) hknown).weaken
    (fun db hdb => hdb ▸ hhistory) (fun _ _ hdb => hdb)
    fun db hdb => Prefix.of_appended hdb hnext) fun _ => ret fun db hdb => ?_
  exact Prefix.of_appended (.inr hdb) hnext

/-! ## The straggler error -/

def MigrationError.OutOfOrder (error : MigrationError) : Prop :=
  ∃ names highest, error = .stragglers names highest

section

variable {P : Database → Prop} {α : Type}

theorem ofExcept_raises {x : Except MigrationError α} (h : ∀ e, x = .error e → ¬ e.OutOfOrder) :
    Raises P (ofExcept x) fun e => ¬ e.OutOfOrder := by
  cases x with
  | ok a => exact Raises.ret a
  | error e => exact Raises.raise (h e rfl)

theorem splitFrom_error {fuel : ℕ} {quote : Option Char} {current text : List Char}
    {statements : List String} {e : MigrationError} :
    splitFrom fuel quote current statements text = .error e → ¬ e.OutOfOrder := by
  fun_induction splitFrom fuel quote current statements text
  case case1 | case8 =>
    rintro ⟨⟩ ⟨names, highest, hsame⟩
    cases hsame
  case case2 | case3 => exact fun h => nomatch h
  all_goals assumption

theorem discoverEntry_error {path : PathEntry} {e : MigrationError}
    (h : discoverEntry env files path = .error e) : ¬ e.OutOfOrder := by
  rintro ⟨names, highest, rfl⟩
  unfold discoverEntry at h
  split_ifs at h
  repeat' split at h
  all_goals cases h

theorem discoverVersions_error {e : MigrationError} (h : discoverVersions env dir = .error e) :
    ¬ e.OutOfOrder := by
  cases dir with
  | none =>
    rintro ⟨names, highest, rfl⟩
    cases h
  | some entries =>
    have hfold : ∀ (paths : List PathEntry) (files : List VersionFile),
        paths.foldlM (discoverEntry env) files = .error e → ¬ e.OutOfOrder := by
      intro paths
      induction paths with
      | nil => exact fun files h => nomatch h
      | cons path paths ih =>
        intro files hpaths
        rw [foldlM_cons] at hpaths
        rcases error_of_bind hpaths with hentry | ⟨found, _, hrest⟩
        · exact discoverEntry_error hentry
        · exact ih found hrest
    rcases error_of_bind h with hfound | ⟨found, _, hsorted⟩
    · exact hfold _ _ hfound
    · cases hsorted

theorem parseRows_error {e : MigrationError}
    (h : parseRows nodes = .error e) : ¬ e.OutOfOrder := by
  rintro ⟨names, highest, rfl⟩
  unfold parseRows SchemaVersion.parseRecord at h
  split at h
  · cases h
  · split_ifs at h
    cases h
  · cases h

theorem send_raises {commit : Database → Database} {error : MigrationError} (call : Sent)
    (h : ¬ error.OutOfOrder) : Raises P (send commit error call) fun e => ¬ e.OutOfOrder := by
  cases call with
  | returned repeats => exact Raises.update _
  | raised commits =>
    exact Raises.seq (Raises.update _) fun _ => Raises.raise h

theorem runStatements_raises {total index : ℕ} {statements : List String} :
    Raises P (runStatements env world file total index statements)
      fun e => ¬ e.OutOfOrder := by
  induction statements generalizing index P with
  | nil => exact Raises.ret _
  | cons statement rest ih =>
    refine Raises.seq (send_raises _ ?_) fun _ => ih
    rintro ⟨names, highest, hsame⟩
    cases hsame

theorem applyOne_raises : Raises P (applyOne env world file) fun e => ¬ e.OutOfOrder := by
  refine Raises.seq (ofExcept_raises fun e h => splitFrom_error h) fun statements => ?_
  split_ifs
  · refine Raises.raise ?_
    rintro ⟨names, highest, hsame⟩
    cases hsame
  · refine Raises.seq runStatements_raises fun _ => send_raises _ ?_
    rintro ⟨names, highest, hsame⟩
    cases hsame

theorem applyPending_raises {already : List ℕ} {result : MigrationResult} :
    Raises P (applyPending env world already result files) fun e => ¬ e.OutOfOrder := by
  induction files generalizing result P with
  | nil => exact Raises.ret _
  | cons file rest ih =>
    unfold applyPending
    split_ifs
    · exact ih
    · exact Raises.seq applyOne_raises fun _ => ih

theorem appliedVersions_raises : Raises P (appliedVersions world) fun e => ¬ e.OutOfOrder := by
  unfold appliedVersions
  split_ifs
  · intro db _
    exact ofExcept_raises (P := fun _ => True) (fun e h => parseRows_error h) db trivial
  · refine Raises.raise ?_
    rintro ⟨names, highest, hsame⟩
    cases hsame

theorem check_raises {found : List VersionFile} {applied : List AppliedVersion}
    (h : ∀ db, P db → Prefix env (onDisk env dir) db ∧ found = onDisk env dir ∧
      parseRows db.nodes = .ok applied) :
    Raises P (ofExcept (checkConsistency env found applied)) fun e => ¬ e.OutOfOrder := by
  intro db hdb
  obtain ⟨⟨done, hfront, hhistory⟩, rfl, hread⟩ := h db hdb
  rw [(hhistory.applied hread hfront).1]
  exact Raises.ret (P := fun _ => True) _ db trivial

theorem applyAll_raises :
    Raises (Prefix env (onDisk env dir)) (applyAll env dir world) fun e => ¬ e.OutOfOrder := by
  refine Raises.bind (ofExcept_raises fun e h => discoverVersions_error h)
    (discover_triple (E := fun _ => True) fun _ _ => trivial) fun found => ?_
  refine Raises.bind appliedVersions_raises
    (appliedVersions_triple (E := fun _ => True) fun _ _ => trivial) fun applied => ?_
  refine Raises.bind (check_raises fun db hdb => ⟨hdb.1.1, hdb.1.2, hdb.2⟩)
    (check_triple (E := fun _ => True) fun _ _ => trivial) fun _ => applyPending_raises

theorem apply_raises :
    Raises (Prefix env (onDisk env dir)) (apply env dir world file) fun e => ¬ e.OutOfOrder := by
  refine Raises.bind appliedVersions_raises
    (appliedVersions_triple (E := fun _ => True) fun _ _ => trivial) fun applied => ?_
  refine Raises.bind (ofExcept_raises fun e h => discoverVersions_error h)
    (discover_triple (E := fun _ => True) fun _ _ => trivial) fun found => ?_
  refine Raises.bind (check_raises fun db hdb => ⟨hdb.1.1, hdb.2, hdb.1.2⟩)
    (check_triple (E := fun _ => True) fun _ _ => trivial) fun _ => ?_
  split_ifs
  · exact Raises.ret _
  · exact Raises.seq applyOne_raises fun _ => Raises.ret _

end

/-! ## Runs -/

inductive Call
  | applyAll (world : Faults)
  | apply (world : Faults) (file : VersionFile)

def outcome {α : Type} (run : Except MigrationError α × Database) :
    Option MigrationError × Database :=
  (match run.1 with
    | .ok _ => none
    | .error e => some e, run.2)

def Call.perform (env : Env) (dir : Directory) (db : Database) :
    Call → Option MigrationError × Database
  | .applyAll world => outcome (exec (Schema.applyAll env dir world) db)
  | .apply world file => outcome (exec (Schema.apply env dir world file) db)

theorem outcome_error {α : Type} {run : Except MigrationError α × Database} {e : MigrationError}
    (h : (outcome run).1 = some e) : run.1 = .error e := by
  obtain ⟨result, db⟩ := run
  cases result with
  | ok a => cases h
  | error e' =>
    cases h
    rfl

def migrated (env : Env) (dir : Directory) (calls : List Call) : Database :=
  calls.foldl (fun db call => (call.perform env dir db).2) ⟨[], []⟩

def Call.InTurn (env : Env) (dir : Directory) (db : Database) : Call → Prop
  | .applyAll _ => True
  | .apply _ file => Due env dir file db

def InTurn (env : Env) (dir : Directory) : Database → List Call → Prop
  | _, [] => True
  | db, call :: calls =>
    call.InTurn env dir db ∧ InTurn env dir (call.perform env dir db).2 calls

theorem Prefix.fresh : Prefix env files ⟨[], []⟩ :=
  ⟨[], nil_prefix, .inl ⟨rfl, rfl⟩, fun _ hfile => nomatch hfile⟩

theorem Prefix.perform {call : Call} (hquiet : ∀ file ∈ onDisk env dir, Quiet env file)
    (h : Prefix env (onDisk env dir) db) (hturn : call.InTurn env dir db) :
    Prefix env (onDisk env dir) (call.perform env dir db).2 := by
  cases call with
  | applyAll world => exact (applyAll_keeps hquiet).state h
  | apply world file => exact (apply_keeps hquiet).leaves ⟨h, hturn⟩

theorem Prefix.inOrder (h : Prefix env (onDisk env dir) db) (call : Call) {e : MigrationError}
    (he : (call.perform env dir db).1 = some e) : ¬ e.OutOfOrder := by
  cases call with
  | applyAll world => exact applyAll_raises db h e (outcome_error he)
  | apply world file => exact apply_raises db h e (outcome_error he)

theorem Prefix.run {calls : List Call} (hquiet : ∀ file ∈ onDisk env dir, Quiet env file)
    (h : Prefix env (onDisk env dir) db) (hturns : InTurn env dir db calls) :
    Prefix env (onDisk env dir)
      (calls.foldl (fun db call => (call.perform env dir db).2) db) := by
  induction calls generalizing db with
  | nil => exact h
  | cons call calls ih => exact ih (h.perform hquiet hturns.1) hturns.2

/-- The recorded versions go up, are the first ones on disk, were run in full, and no call that
follows meets a straggler. -/
structure Ordered (env : Env) (dir : Directory) (db : Database) : Prop where
  increasing : (recorded db).Pairwise (· < ·)
  initial : recorded db <+: (onDisk env dir).map version
  executed : ∀ version ∈ recorded db, ∃ file ∈ onDisk env dir,
    file.version = version ∧ Executed db file
  continues : ∀ (call : Call) names highest,
    (call.perform env dir db).1 ≠ some (.stragglers names highest)

theorem Prefix.ordered (h : Prefix env (onDisk env dir) db) : Ordered env dir db := by
  obtain ⟨done, hfront, hhistory⟩ := h
  have hstrict : (onDisk env dir).Pairwise fun a b => a.version < b.version := onDisk_strict
  have hrecorded := hhistory.recorded
  refine ⟨?_, ?_, fun version hversion => ?_, fun call names highest he => ?_⟩
  · rw [hrecorded]
    exact pairwise_map.mpr (hstrict.sublist hfront.sublist)
  · rw [hrecorded]
    exact hfront.map _
  · rw [hrecorded] at hversion
    obtain ⟨file, hfile, rfl⟩ := mem_map.mp hversion
    exact ⟨file, hfront.subset hfile, rfl, hhistory.executed file hfile⟩
  · exact Prefix.inOrder ⟨done, hfront, hhistory⟩ call he ⟨names, highest, rfl⟩

/-- Where single versions are applied in their turn, the recorded history is an ordered prefix of
the version files after every call. -/
theorem migrated_ordered (env : Env) (dir : Directory) (calls : List Call)
    (hquiet : ∀ file ∈ onDisk env dir, Quiet env file)
    (hturns : InTurn env dir ⟨[], []⟩ calls) : Ordered env dir (migrated env dir calls) :=
  (Prefix.fresh.run hquiet hturns).ordered

def plainEnv : Env where
  sha256 := id
  decimal := fun char => if char.isDigit then some (char.toNat - 48) else none
  nodeId := "omnisense"
  effect := fun _ nodes => nodes

theorem plainEnv_quiet (file : VersionFile) : Quiet plainEnv file := fun _ _ _ _ _ => rfl

def twoVersions : Directory :=
  some [⟨"v002_second.cypher", true, some "RETURN 2;"⟩,
    ⟨"v001_first.cypher", true, some "RETURN 1;"⟩]

def firstFile : VersionFile := ⟨1, "first", "v001_first.cypher", "RETURN 1;"⟩

def secondFile : VersionFile := ⟨2, "second", "v002_second.cypher", "RETURN 2;"⟩

theorem onDisk_twoVersions : onDisk plainEnv twoVersions = [firstFile, secondFile] := by
  decide +kernel

def steady : Faults where
  reads := true
  statement _ _ := .returned 0
  record _ := .returned 1
  appliedAt _ := 0
  durationMs _ := 0

theorem migrated_ordered_two : Ordered plainEnv twoVersions
    (migrated plainEnv twoVersions [.apply steady firstFile, .applyAll steady]) := by
  refine migrated_ordered plainEnv twoVersions _ (fun file _ => plainEnv_quiet file)
    ⟨.inr ⟨?_, fun other hother hlower => ?_⟩, trivial, trivial⟩
  · rw [onDisk_twoVersions]
    exact mem_cons_self
  · rw [onDisk_twoVersions] at hother
    rcases mem_pair.mp hother with rfl | rfl <;> exact absurd hlower (by decide)

def AlwaysOrdered : Prop :=
  ∀ (env : Env) (dir : Directory) (calls : List Call),
    (∀ file ∈ onDisk env dir, Quiet env file) → Ordered env dir (migrated env dir calls)

/-- A single version may be applied before the ones below it. -/
theorem second_file_first : ¬ AlwaysOrdered := by
  intro hordered
  have hfront := (hordered plainEnv twoVersions [.apply steady secondFile]
    fun file _ => plainEnv_quiet file).initial
  rw [onDisk_twoVersions] at hfront
  revert hfront
  decide +kernel

end OmniSense.Schema
