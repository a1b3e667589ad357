import RagFlow.Interleave
import RagFlow.ScanConverge

/-! # Scans side by side

A scan imports a file when no document of the knowledge base has its path as location.  It asks
for such documents and, when there are none, saves a document of its own: two statements, with
others between them and no lock around them.  The threads here are any number of scans, each with
a file system and a request of its own, and any statement may fail before or after it took effect.

`importing` watches a scan: a document is saved only after a query that found its place vacant.
`scans_unique` says that no two documents of a knowledge base come to share a location as long as
no scan saves a document for a place after another scan has done so since its query
(`inTurn`); `scans_collide` is a schedule of two scans of one directory where this happens. -/

namespace RagFlow.Race

open Py Effect

variable {ι : Type} {db db' : Db}

/-- The statements of the scans on the shared stores. -/
def storeHandler (uuid : ℕ → Str) : Handler Fate Call (fun c => c.op.Ret) Err Db :=
  fun f c db => some (f.reply .failure db (c.apply uuid db))

/-- The events of the scans. -/
abbrev Trace (ι : Type) := List (ι × Event Call (fun c => c.op.Ret) Err)

/-! ### What a scan does between its query and its insertion -/

/-- The place that the last query has found vacant: a knowledge base and a location. -/
abbrev Phase := Option (Str × Str)

def Phase.next (g : Phase) (c : Call) (r : Except Err c.op.Ret) : Phase :=
  match c.op, r with
  | .docsAt kbId path, .ok [] => some (kbId, path)
  | .docsAt _ _, _ => none
  | .saveDocument _, _ => none
  | _, _ => g

/-- A document is saved only where the last query has found no other. -/
def Phase.allows (g : Phase) (c : Call) : Prop :=
  match c.op with
  | .saveDocument d => ∃ path, d.location = some path ∧ g = some (d.kbId, path)
  | _ => True

def importing : Protocol Call (fun c => c.op.Ret) Err Phase := ⟨Phase.allows, Phase.next⟩

/-- Statements that are neither the query nor the insertion. -/
def Op.Apart : Op → Prop
  | .docsAt _ _ | .saveDocument _ => False
  | _ => True

def apart : Terms := ⟨fun c => Op.Apart c.op, fun _ _ => True⟩

theorem idle_within_apart : idle.Within apart := by
  refine ⟨?_, fun _ _ _ => trivial⟩
  rintro ⟨site, op⟩ ⟨hop, -⟩
  cases op <;> trivial

theorem removal_within_apart (id : Str) : (removal id).Within apart := by
  refine ⟨?_, fun _ _ _ => trivial⟩
  rintro ⟨site, op⟩ ⟨hop, -⟩
  cases op <;> trivial

theorem link_within_apart (id : Str) : (link true id).Within apart := by
  refine ⟨?_, fun c r _ => link_answers id c r⟩
  rintro ⟨site, op⟩ ⟨hop, -⟩
  cases op <;> trivial

/-- Such statements are allowed everywhere and leave the phase alone. -/
theorem apart_follows {α : Type} {Q : α → Prop} {p : Service α} (hp : Only apart Q p) (g : Phase) :
    Follows importing (fun g' _ => g' = g) g p := by
  refine Follows.of_only (fun _ _ => trivial) ?_ ?_ hp
  · rintro ⟨site, op⟩ hop
    cases op <;> trivial
  · rintro ⟨site, op⟩ r hop
    cases op <;> first | rfl | exact hop.elim

section follows
variable {g : Phase} (env : ScanEnv) (req : ScanRequest) (plan : ScanPlan)

/-- The phase does not matter at the end. -/
abbrev Whatever {α : Type} (_ : Phase) (_ : Except Err α) : Prop := True

/-- Other statements before going on. -/
theorem apart_bind {α β : Type} {Q : α → Prop} {p : Service α} {f : α → Service β}
    (hp : Only apart Q p) (hf : ∀ a, Follows importing Whatever g (f a)) :
    Follows importing Whatever g (p >>= f) := by
  refine Follows.bind (apart_follows hp g) (fun g' a hg' => ?_) (fun _ _ _ => trivial)
  rw [hg']
  exact hf a

theorem insertDocument_follows {key path : Str} {d : Document} (hpath : d.location = some path) :
    Follows importing Whatever (some (d.kbId, path)) (insertDocument key d) := by
  refine Follows.perform_bind ⟨path, hpath, rfl⟩ (fun _ => ?_) (fun _ => trivial)
  refine Follows.perform_bind trivial (fun num => ?_) (fun _ => trivial)
  exact Follows.ite (fun _ => Follows.perform trivial (fun _ => trivial))
    (fun _ => Follows.pure trivial)

theorem importNew_follows (f : WalkEntry) (id : Str) :
    Follows importing Whatever (some (plan.kb.id, f.path)) (importNew env req plan f id) := by
  have hdescribe : Follows importing
      (fun g r => g = some (plan.kb.id, f.path) ∧
        ∀ d, r = .ok d → d.kbId = plan.kb.id ∧ d.location = some f.path)
      (some (plan.kb.id, f.path)) (describeFile env plan id f) := by
    refine Follows.perform_bind trivial (fun size => ?_) (fun _ => ⟨rfl, fun _ h => by cases h⟩)
    refine Follows.perform_bind trivial (fun mtime => ?_) (fun _ => ⟨rfl, fun _ h => by cases h⟩)
    refine Follows.pure ⟨rfl, fun d hd => ?_⟩
    cases hd
    exact ⟨rfl, rfl⟩
  refine Follows.bind hdescribe (fun g d hd => ?_) (fun _ _ _ => trivial)
  obtain ⟨rfl, hd⟩ := hd
  obtain ⟨hkb, hpath⟩ := hd d rfl
  rw [← hkb]
  refine Follows.bind (insertDocument_follows hpath) (fun g _ _ => ?_) (fun _ _ _ => trivial)
  exact apart_bind ((linkFile_uses env req plan f d).within (link_within_apart d.id)).only
    (fun _ => Follows.pure trivial)

theorem importFile_follows (f : WalkEntry) :
    Follows importing Whatever g (importFile env req plan f) := by
  refine Follows.perform_bind trivial (fun existing => ?_) (fun _ => trivial)
  refine Follows.ite (fun hempty => ?_) (fun _ => Follows.pure trivial)
  obtain rfl := List.isEmpty_iff.mp hempty
  refine Follows.perform_bind trivial (fun id => ?_) (fun _ => trivial)
  exact importNew_follows env req plan f id

theorem importAll_follows (files : List WalkEntry) : ∀ (g : Phase) (t : Tally),
    Follows importing Whatever g (importAll env req plan t files) := by
  induction files with
  | nil => exact fun _ _ => Follows.pure trivial
  | cons f files ih =>
      intro g t
      have hstep : Follows importing Whatever g (importStep env req plan t f) := by
        refine Follows.tryCatch (?_ : Follows importing Whatever g _) (fun _ _ _ => trivial)
          (fun _ _ _ => Follows.pure trivial)
        refine Follows.bind (importFile_follows env req plan f) (fun g id _ => ?_)
          (fun _ _ _ => trivial)
        cases id with
        | none => exact Follows.pure trivial
        | some id => exact Follows.pure trivial
      exact Follows.bind hstep (fun g t _ => ih g t) (fun _ _ _ => trivial)

theorem runScan_follows : Follows importing Whatever g (runScan env req plan) := by
  refine apart_bind ((directoryRecord_uses req plan).within idle_within_apart).only (fun _ => ?_)
  refine Follows.perform_bind trivial (fun docs => ?_) (fun _ => trivial)
  have hsweep : ∀ d ∈ docs, d.startsWith plan.path = true → Sweepable env plan apart true d :=
    fun d _ _ => Or.inr ⟨rfl, removal_within_apart d.id⟩
  refine apart_bind (sweep_uses idle_within_apart docs hsweep {}).only (fun t => ?_)
  refine Follows.bind (importAll_follows env req plan plan.files _ t) (fun g t _ => ?_)
    (fun _ _ _ => trivial)
  exact Follows.perform_bind trivial (fun _ => Follows.pure trivial) (fun _ => trivial)

theorem scanDirectory_follows : Follows importing Whatever g (scanDirectory env req) := by
  have hkb : Only apart Anything (getOrNone (issue .kbGet req.kbId (.getKb req.kbId))) :=
    Only.tryCatch (Only.perform trivial) (fun _ => Only.pure trivial)
  refine apart_bind hkb (fun kb => ?_)
  split
  · exact Follows.pure trivial
  · next plan _ =>
      exact Follows.bind (runScan_follows env req plan) (fun _ _ _ => Follows.pure trivial)
        (fun _ _ _ => trivial)

end follows

/-! ### Places and their documents -/

/-- No document of the knowledge base is at the path. -/
def Vacant (kbId path : Str) (db : Db) : Prop := ∀ s ∈ db.stamps, ¬s.At kbId path

theorem uniqueLocations_iff {kbId : Str} : UniqueLocations kbId db ↔
    ∀ s ∈ db.stamps, ∀ s' ∈ db.stamps, ∀ path, s.At kbId path → s'.At kbId path → s = s' := by
  constructor
  · intro h s hs s' hs' path hat hat'
    obtain ⟨d, hd, rfl⟩ := mem_stamps.mp hs
    obtain ⟨d', hd', rfl⟩ := mem_stamps.mp hs'
    rw [h d hd d' hd' path hat hat']
  · intro h d hd d' hd' path hat hat'
    have hstamp := h _ (mem_stamps.mpr ⟨d, hd, rfl⟩) _ (mem_stamps.mpr ⟨d', hd', rfl⟩) path hat hat'
    exact db.documents.eq_of_key_eq hd hd' (congrArg Stamp.id hstamp)

theorem uniqueLocations_of_subset {kbId : Str} (h : UniqueLocations kbId db)
    (hsub : ∀ s ∈ db'.stamps, s ∈ db.stamps) : UniqueLocations kbId db' := by
  rw [uniqueLocations_iff] at h ⊢
  exact fun s hs s' hs' => h s (hsub s hs) s' (hsub s' hs')

/-- A document saved where there was none. -/
theorem uniqueLocations_of_saved {kbId : Str} {d : Document} (h : UniqueLocations kbId db)
    (hstamps : db'.stamps = db.stamps ++ [d.stamp])
    (hvacant : ∀ path, d.At kbId path → Vacant kbId path db) : UniqueLocations kbId db' := by
  rw [uniqueLocations_iff] at h ⊢
  intro s hs s' hs' path hat hat'
  rw [hstamps, List.mem_append, List.mem_singleton] at hs hs'
  rcases hs with hs | rfl
  · rcases hs' with hs' | rfl
    · exact h s hs s' hs' path hat hat'
    · exact absurd hat (hvacant path hat' s hs)
  · rcases hs' with hs' | rfl
    · exact absurd hat' (hvacant path hat s' hs')
    · rfl

/-- A statement adds the stamp of a document it saves, and no other. -/
theorem stamps_handler {uuid : ℕ → Str} {f : Fate} {c : Call} {r : Except Err c.op.Ret}
    (h : storeHandler uuid f c db = some (r, db')) :
    (∀ s ∈ db'.stamps, s ∈ db.stamps) ∨
      ∃ d, c.op = .saveDocument d ∧ db'.stamps = db.stamps ++ [d.stamp] := by
  have hafter : db' = db ∨ db' = (c.apply uuid db).2 := by
    rcases Fate.reply_cases (Option.some_inj.mp h) with ⟨-, hdb⟩ | ⟨-, hdb⟩
    · exact Or.inr hdb
    · exact hdb
  rcases hafter with rfl | rfl
  · exact Or.inl (fun _ hs => hs)
  · unfold Call.apply
    rcases stamps_apply uuid c.op db with heq | ⟨d, hop, -, heq⟩ | ⟨id, -, heq⟩
    · exact Or.inl (fun s hs => heq ▸ hs)
    · exact Or.inr ⟨d, hop, heq⟩
    · refine Or.inl (fun s hs => ?_)
      rw [heq] at hs
      exact (List.mem_filter.mp hs).1

/-- A query that finds nothing. -/
theorem vacant_of_query {uuid : ℕ → Str} {f : Fate} {site : Site} {kbId path : Str}
    (h : storeHandler uuid f ⟨site, .docsAt kbId path⟩ db = some (.ok [], db')) :
    Vacant kbId path db := by
  intro s hs hat
  rcases Fate.reply_cases (Option.some_inj.mp h) with ⟨hr, -⟩ | ⟨hr, -⟩
  · exact docsAt_eq_nil.mp (Except.ok.inj hr).symm s hs hat.foundAt
  · cases hr

/-! ### Being overtaken -/

section overtaken
variable [DecidableEq ι]

/-- Whether the scan `i` has been overtaken, after one more event: not when it asks for the place
again, and when another scan saves a document there. -/
def watch (kbId path : Str) (i : ι) (late : Bool) (e : ι × Event Call (fun c => c.op.Ret) Err) :
    Bool :=
  match e.2.cmd.op with
  | .docsAt kbId' path' => if e.1 = i ∧ kbId' = kbId ∧ path' = path then false else late
  | .saveDocument d => late || (e.1 ≠ i && d.kbId = kbId && d.location = some path)
  | _ => late

/-- Since the last query of the scan `i` for the place, another scan has saved a document there. -/
def overtaken (kbId path : Str) (i : ι) (t : Trace ι) : Bool := t.foldl (watch kbId path i) false

theorem overtaken_append (kbId path : Str) (i : ι) (t : Trace ι)
    (e : ι × Event Call (fun c => c.op.Ret) Err) :
    overtaken kbId path i (t ++ [e]) = watch kbId path i (overtaken kbId path i t) e := by
  unfold overtaken
  rw [List.foldl_append]
  rfl

/-- The scans on the stores. -/
abbrev Scans (ι : Type) := Pool ι Call (fun c => c.op.Ret) Err Db (Except Refusal ScanReport)

/-- The scan that saves a document of the knowledge base has not been overtaken. -/
def inTurn (kbId : Str) (p : Scans ι) (i : ι) (c : Call) : Bool :=
  match c.op with
  | .saveDocument d =>
      match d.location with
      | some path => d.kbId ≠ kbId || !overtaken kbId path i p.trace
      | none => true
  | _ => true

/-- Locations are unique, and what a scan has found vacant still is unless it has been
overtaken. -/
structure Orderly (kbId : Str) (db : Db) (t : Trace ι) (g : ι → Phase) : Prop where
  unique : UniqueLocations kbId db
  vacant : ∀ i path, g i = some (kbId, path) → overtaken kbId path i t = false →
    Vacant kbId path db

variable {uuid : ℕ → Str} {kbId : Str} {t : Trace ι} {g : ι → Phase} {i : ι} {f : Fate}

theorem Orderly.query (h : Orderly kbId db t g) {site : Site} {kbId' path' : Str}
    {r : Except Err (List Document)}
    (hreply : storeHandler uuid f ⟨site, .docsAt kbId' path'⟩ db = some (r, db')) :
    Orderly kbId db' (t ++ [(i, ⟨⟨site, .docsAt kbId' path'⟩, r⟩)])
      (Function.update g i (importing.next (g i) ⟨site, .docsAt kbId' path'⟩ r)) := by
  have hdb : db' = db := by
    rcases Fate.reply_cases (Option.some_inj.mp hreply) with ⟨-, hdb⟩ | ⟨-, hdb | hdb⟩
    · exact hdb
    · exact hdb
    · exact hdb
  subst hdb
  refine ⟨h.unique, fun j path hj hlate => ?_⟩
  by_cases hij : j = i
  · subst hij
    rw [Function.update_self] at hj
    cases r with
    | error e => cases hj
    | ok docs =>
        cases docs with
        | nil =>
            cases hj
            exact vacant_of_query hreply
        | cons d docs => cases hj
  · rw [Function.update_of_ne hij] at hj
    rw [overtaken_append] at hlate
    unfold watch at hlate
    dsimp only at hlate
    rw [if_neg (fun hc => hij hc.1.symm)] at hlate
    exact h.vacant j path hj hlate

theorem Orderly.save (h : Orderly kbId db t g) {site : Site} {d : Document} {r : Except Err Unit}
    (hallows : importing.allows (g i) ⟨site, .saveDocument d⟩)
    (hturn : ∀ path, d.At kbId path → overtaken kbId path i t = false)
    (hreply : storeHandler uuid f ⟨site, .saveDocument d⟩ db = some (r, db')) :
    Orderly kbId db' (t ++ [(i, ⟨⟨site, .saveDocument d⟩, r⟩)])
      (Function.update g i (importing.next (g i) ⟨site, .saveDocument d⟩ r)) := by
  obtain ⟨place, hplace, hg⟩ := hallows
  have hfound : ∀ path, d.At kbId path → Vacant kbId path db := by
    rintro path ⟨rfl, hpath⟩
    obtain rfl : place = path := Option.some_inj.mp (hplace.symm.trans hpath)
    exact h.vacant i place hg (hturn place ⟨rfl, hpath⟩)
  have hothers : ∀ j path, Function.update g i none j = some (kbId, path) →
      overtaken kbId path j (t ++ [(i, ⟨⟨site, .saveDocument d⟩, r⟩)]) = false →
      Vacant kbId path db ∧ ¬d.At kbId path := by
    intro j path hj hlate
    by_cases hij : j = i
    · subst hij
      rw [Function.update_self] at hj
      cases hj
    · rw [Function.update_of_ne hij] at hj
      rw [overtaken_append] at hlate
      unfold watch at hlate
      dsimp only at hlate
      rw [Bool.or_eq_false_iff] at hlate
      refine ⟨h.vacant j path hj hlate.1, ?_⟩
      rintro ⟨hkb, hpath⟩
      have hsaved := hlate.2
      simp [hkb, hpath, Ne.symm hij] at hsaved
  rcases stamps_handler hreply with hsub | ⟨d', hop, hstamps⟩
  · refine ⟨uniqueLocations_of_subset h.unique hsub, fun j path hj hlate s hs => ?_⟩
    exact (hothers j path hj hlate).1 s (hsub s hs)
  · cases hop
    refine ⟨uniqueLocations_of_saved h.unique hstamps hfound, fun j path hj hlate s hs => ?_⟩
    obtain ⟨hvacant, hat⟩ := hothers j path hj hlate
    rw [hstamps, List.mem_append, List.mem_singleton] at hs
    rcases hs with hs | rfl
    · exact hvacant s hs
    · exact hat

theorem Orderly.other (h : Orderly kbId db t g) {c : Call} {r : Except Err c.op.Ret}
    (hc : Op.Apart c.op) (hreply : storeHandler uuid f c db = some (r, db')) :
    Orderly kbId db' (t ++ [(i, ⟨c, r⟩)]) (Function.update g i (importing.next (g i) c r)) := by
  obtain ⟨site, op⟩ := c
  have hnext : importing.next (g i) ⟨site, op⟩ r = g i := by
    cases op <;> first | rfl | exact hc.elim
  have hwatch : ∀ path j late, watch kbId path j late (i, ⟨⟨site, op⟩, r⟩) = late := by
    intro path j late
    cases op <;> first | rfl | exact hc.elim
  have hsub : ∀ s ∈ db'.stamps, s ∈ db.stamps := by
    rcases stamps_handler hreply with hsub | ⟨d, hop, -⟩
    · exact hsub
    · dsimp only at hop
      subst hop
      exact hc.elim
  rw [hnext, Function.update_eq_self]
  refine ⟨uniqueLocations_of_subset h.unique hsub, fun j path hj hlate s hs => ?_⟩
  rw [overtaken_append, hwatch] at hlate
  exact h.vacant j path hj hlate s (hsub s hs)

end overtaken

/-! ### Any interleaving -/

/-- **Scans side by side.**  As long as no scan saves a document after it has been overtaken, no
two documents of the knowledge base share a location. -/
theorem scans_unique [DecidableEq ι] (uuid : ℕ → Str) (kbId : Str)
    (scans : ι → ScanEnv × ScanRequest) (db : Db) (hdb : UniqueLocations kbId db) (q : Scans ι)
    (hreach : Pool.Reaches (storeHandler uuid) (fun p i c => inTurn kbId p i c = true)
      (Pool.start db (fun i => scanDirectory (scans i).1 (scans i).2)) q) :
    UniqueLocations kbId q.state := by
  have hfollows : ∀ i, Follows importing Whatever none (scanDirectory (scans i).1 (scans i).2) :=
    fun i => scanDirectory_follows (scans i).1 (scans i).2
  have hinit : Orderly kbId db ([] : Trace ι) (fun _ => none) :=
    ⟨hdb, fun _ _ hg => (by cases hg)⟩
  refine (hreach.keeps (P := fun _ => importing) (I := Orderly kbId) hfollows hinit ?_).1.unique
  intro p i c x r db' hI hallows hcond hreply
  obtain ⟨site, op⟩ := c
  by_cases hop : Op.Apart op
  · exact hI.other hop hreply
  · cases op with
    | docsAt kbId' path' => exact hI.query hreply
    | saveDocument d =>
        refine hI.save hallows (fun path hat => ?_) hreply
        simpa [inTurn, hat.1, hat.2] using hcond
    | _ => exact absurd trivial hop

/-! Two scans of a directory with one file. -/

def loneFs : FileSystem :=
  { files := [⟨["mnt", "data", "a.txt"], 1, 5⟩]
    emptyDirs := []
    nodup := by simp
    names := by decide }

def loneScans : Scans Bool :=
  Pool.start (volumeDb Table.empty)
    (fun _ => scanDirectory (volumeEnv loneFs) volumeRequest)

theorem volumeDb_unique : UniqueLocations "kb" (volumeDb Table.empty) :=
  uniqueLocations_of_nodup _ (by decide)

/-- Steps of one scan; nothing fails. -/
def stepsOf (i : Bool) (n : ℕ) : List (Bool × Fate) := List.replicate n (i, .served)

/-- The scan has come to its end, with the identifiers it has imported. -/
def ended (i : Bool) (imported : List Str) (q : Scans Bool) : Prop :=
  match q.threads i with
  | .ret (.ok report) => report.imported = imported
  | _ => False

set_option maxRecDepth 4000 in
theorem scans_unique_in_turn :
    ∃ q, Pool.play (storeHandler volumeUuid) (fun p i c => inTurn "kb" p i c = true)
        (stepsOf true 26 ++ stepsOf false 7) loneScans = some q ∧
      ended true ["uu"] q ∧ ended false [] q ∧ UniqueLocations "kb" q.state := by
  have hplay : ∃ q, Pool.play (storeHandler volumeUuid) (fun p i c => inTurn "kb" p i c = true)
      (stepsOf true 26 ++ stepsOf false 7) loneScans = some q ∧ ended true ["uu"] q ∧
        ended false [] q := ⟨_, rfl, rfl, rfl⟩
  obtain ⟨q, hplay, htrue, hfalse⟩ := hplay
  exact ⟨q, hplay, htrue, hfalse, scans_unique volumeUuid "kb"
    (fun _ => (volumeEnv loneFs, volumeRequest)) _ volumeDb_unique q (Pool.play_reaches _ hplay)⟩

/-- A document of the file, by its identifier, its knowledge base and its location. -/
def loneDocument (id : Str) : Str × Str × Option Str := (id, "kb", some "/mnt/data/a.txt")

set_option maxRecDepth 4000 in
/-- Both scans ask for the documents at the path of the file before one of them saves its own, and
both import the file. -/
theorem scans_collide :
    UniqueLocations "kb" loneScans.state ∧
      ∃ q, Pool.Reaches (storeHandler volumeUuid) Pool.anyStep loneScans q ∧
        (∃ ids, ended true ids q) ∧ (∃ ids, ended false ids q) ∧ ¬UniqueLocations "kb" q.state := by
  refine ⟨volumeDb_unique, ?_⟩
  have hplay : ∃ q, Pool.play (storeHandler volumeUuid) Pool.anyStep
      (stepsOf true 7 ++ stepsOf false 24 ++ stepsOf true 19) loneScans = some q ∧
        ended true ["uuuuuu"] q ∧ ended false ["uu"] q ∧
        q.state.documents.rows.map (fun d => (d.id, d.kbId, d.location)) =
          [loneDocument "uu", loneDocument "uuuuuu"] :=
    ⟨_, rfl, rfl, rfl, rfl⟩
  obtain ⟨q, hplay, htrue, hfalse, hrows⟩ := hplay
  refine ⟨q, Pool.play_reaches _ hplay, ⟨_, htrue⟩, ⟨_, hfalse⟩, fun hunique => ?_⟩
  have hmem : ∀ id ∈ [("uu" : Str), "uuuuuu"],
      ∃ d ∈ q.state.documents, d.id = id ∧ d.At "kb" "/mnt/data/a.txt" := by
    intro id hid
    have hrow : loneDocument id ∈ [loneDocument "uu", loneDocument "uuuuuu"] :=
      List.mem_map_of_mem (f := loneDocument) hid
    rw [← hrows] at hrow
    obtain ⟨d, hd, hdoc⟩ := List.mem_map.mp hrow
    obtain ⟨hid, hplace⟩ := Prod.mk.inj hdoc
    exact ⟨d, hd, hid, Prod.mk.inj hplace⟩
  obtain ⟨d, hd, hid, hat⟩ := hmem "uu" List.mem_cons_self
  obtain ⟨d', hd', hid', hat'⟩ := hmem "uuuuuu" (List.mem_cons_of_mem _ List.mem_cons_self)
  have heq := hunique d hd d' hd' _ hat hat'
  rw [← heq, hid] at hid'
  exact absurd hid' (by decide)

end RagFlow.Race
