import AccAsm.Proofs.Command.Interleaving
import AccAsm.Proofs.Image.Padding

/-! # Runs of the command

A run that does one job after the other is one in which they take turns (`Command.performAll_runs`). What it
leaves on the disk is therefore what is left by jobs that run at the same time. Only the bytes of symbol tables
can differ, since each run may lay them out in its own way (`Command.outcome_result`). -/

namespace AccAsm
open Relation (ReflTransGen)
open Text (lit)

variable {c : JobContext} {d : Disk} {jobs : List Job} {job : Job}

/-! ### One job after the other -/

/-- How a job ended, as seen in its stage. -/
def Stage.Ends (stage : Stage) (s : Session) (r : EStateM.Result JobFailure Session Unit) : Prop :=
  r = .ok () s ∧ stage = .writing [] ∨ (∃ e, r = .error e s) ∧ stage = .failed

theorem Stage.Ends.done {stage : Stage} {s : Session} {r : EStateM.Result JobFailure Session Unit}
    (h : stage.Ends s r) : stage = .writing [] ∨ stage = .failed :=
  h.imp And.right And.right

namespace JobRun
variable {before after : List (Job × Stage)}

theorem forM_store_runs (ws : List Product) {s : Session} {seen : List Disk} (hseen : s.disk ∈ seen) :
    ∃ s' seen' stage, s'.disk ∈ seen' ∧ stage.Ends s' (ws.forM (store c job) s) ∧
      ReflTransGen (Turn c) ⟨s, seen, before ++ (job, .writing ws) :: after⟩
        ⟨s', seen', before ++ (job, stage) :: after⟩ := by
  induction ws generalizing s seen with
  | nil => exact ⟨s, seen, .writing [], hseen, .inl ⟨rfl, rfl⟩, .refl⟩
  | cons w ws ih =>
    have hrun : (w :: ws).forM (store c job) s =
        EStateM.bind (store c job w) (fun _ => ws.forM (store c job)) s := rfl
    rw [hrun, EStateM.bind]
    cases hw : store c job w s with
    | ok _ t =>
      have ht : t.disk ∈ t.disk :: seen := .head _
      obtain ⟨s', seen', stage, hseen', hends, hsteps⟩ := ih ht
      exact ⟨s', seen', stage, hseen', hends, .head (.of_moves (.store hw) before after) hsteps⟩
    | error e t =>
      exact ⟨t, t.disk :: seen, .failed, .head _, .inr ⟨⟨e, rfl⟩, rfl⟩, .single (.of_moves (.stop hw) before after)⟩

/-- A job that is done at a stretch takes all its turns one after the other. -/
theorem perform_runs (c : JobContext) (job : Job) {s : Session} {seen : List Disk} (hseen : s.disk ∈ seen) :
    ∃ s' seen' stage, s'.disk ∈ seen' ∧ stage.Ends s' (perform c job none s) ∧
      ReflTransGen (Turn c) ⟨s, seen, before ++ (job, .waiting) :: after⟩
        ⟨s', seen', before ++ (job, stage) :: after⟩ := by
  have htree (p : Text) : ∃ d ∈ seen,
      (s.disk.tree job.directory job.lead).read p = d.readBelow job.directory job.lead p := ⟨s.disk, hseen, rfl⟩
  have hrun : perform c job none s =
      EStateM.bind (prepare c job (s.disk.tree job.directory job.lead)) (fun ws => ws.forM (store c job)) s :=
    perform_eq c job s
  rw [hrun, EStateM.bind]
  cases hw : prepare c job (s.disk.tree job.directory job.lead) s with
  | ok ws t =>
    have ht : t.disk ∈ t.disk :: seen := .head _
    obtain ⟨s', seen', stage, hseen', hends, hsteps⟩ := forM_store_runs ws ht
    exact ⟨s', seen', stage, hseen', hends, .head (.of_moves (.prepare htree hw) before after) hsteps⟩
  | error e t =>
    exact ⟨t, t.disk :: seen, .failed, .head _, .inr ⟨⟨e, rfl⟩, rfl⟩,
      .single (.of_moves (.refuse htree hw) before after)⟩

end JobRun

namespace Command

theorem performAll_of_ok {s t : Session} (h : JobRun.perform c job none s = .ok () t) (rest : List Job) :
    performAll c (job :: rest) s = performAll c rest t := by
  simp only [performAll, h]

theorem performAll_of_error {s t s' : Session} {e : JobFailure} (h : JobRun.perform c job none s = .error e t)
    {rest : List Job} (hrest : performAll c rest t = .ok () s' ∨ ∃ e', performAll c rest t = .error e' s') :
    performAll c (job :: rest) s = .error e s' := by
  rcases hrest with hrest | ⟨e', hrest⟩
  · simp only [performAll, h, hrest]
  · simp only [performAll, h, hrest]

theorem performAll_runs (jobs : List Job) (before : List (Job × Stage)) {s : Session} {seen : List Disk}
    (hseen : s.disk ∈ seen) :
    ∃ s' seen' stages, ReflTransGen (Turn c) ⟨s, seen, before ++ jobs.map fun job => (job, .waiting)⟩
        ⟨s', seen', before ++ stages⟩ ∧
      (∀ x ∈ stages, x.2 = .writing [] ∨ x.2 = .failed) ∧
      (performAll c jobs s = .ok () s' ∧ (∀ x ∈ stages, x.2 = .writing []) ∨
        (∃ e, performAll c jobs s = .error e s') ∧ ∃ x ∈ stages, x.2 = .failed) := by
  induction jobs generalizing before s seen with
  | nil => exact ⟨s, seen, [], .refl, by simp, .inl ⟨rfl, by simp⟩⟩
  | cons job rest ih =>
    obtain ⟨t, seen₁, stage, hseen₁, hends, hfirst⟩ := JobRun.perform_runs c job hseen
    obtain ⟨s', seen', stages, hsteps, hdone, hrest⟩ := ih (before ++ [(job, stage)]) hseen₁
    rw [List.append_assoc, List.append_assoc] at hsteps
    refine ⟨s', seen', (job, stage) :: stages, hfirst.trans hsteps,
      List.forall_mem_cons.mpr ⟨hends.done, hdone⟩, ?_⟩
    rcases hends with ⟨hok, rfl⟩ | ⟨⟨e, he⟩, rfl⟩
    · rw [performAll_of_ok hok]
      refine hrest.imp ?_ ?_
      · rintro ⟨hall, hstages⟩
        exact ⟨hall, List.forall_mem_cons.mpr ⟨rfl, hstages⟩⟩
      · rintro ⟨hall, x, hx, hfailed⟩
        exact ⟨hall, x, .tail _ hx, hfailed⟩
    · exact .inr ⟨⟨e, performAll_of_error he (hrest.imp And.left And.left)⟩, _, .head _, rfl⟩

theorem performAll_isRun (c : JobContext) (jobs : List Job) (s : Session) :
    ∃ g, ReflTransGen (Turn c) (.start s jobs) g ∧ g.Complete ∧
      (performAll c jobs s = .ok () g.session ∧ g.Finished ∨
        (∃ e, performAll c jobs s = .error e g.session) ∧ ¬ g.Finished) := by
  obtain ⟨s', seen', stages, hsteps, hdone, hrun⟩ := performAll_runs jobs [] (List.mem_singleton_self s.disk)
  refine ⟨⟨s', seen', stages⟩, hsteps, hdone, hrun.imp_right ?_⟩
  rintro ⟨hfail, x, hx, hfailed⟩
  refine ⟨hfail, fun hfinished => ?_⟩
  cases (hfinished x hx).symm.trans hfailed

/-! ### From the options to the jobs -/

/-- The jobs for the files of a run. -/
def jobsFor (c : JobContext) (w : Surroundings) (files : List Text) : List Job :=
  files.map (.ofPath c.options w.workingDirectory)

/-- The options of a run and what it finds on the disk pass all checks that come before the jobs. -/
structure Accepts (w : Surroundings) (d : Disk) (c : JobContext) (files : List Text) : Prop where
  nonempty : files ≠ []
  rendering : Rendering.ofFormat? c.options.format = some c.rendering
  single : c.options.out = [] ∨ files.length ≤ 1
  directory : c.directory = Disk.names w.workingDirectory
  table : c.options.table = [] ∧ c.table = .builtin ∨ c.options.table ≠ [] ∧
    ∃ text, d.read c.directory c.options.table = .ok text ∧ InstructionTable.load text = .ok c.table
  colour : c.colour = w.colour

namespace Accepts
variable {w : Surroundings} {files : List Text}

theorem withFormats (h : Accepts w d c files) (f : Formats) : Accepts w d { c with formats := f } files :=
  ⟨h.nonempty, h.rendering, h.single, h.directory, h.table, h.colour⟩

theorem loadTable_eq (h : Accepts w d c files) {s : Session} (hs : s.disk = d) :
    loadTable c.options.table c.directory s = .ok c.table s := by
  rcases h.table with ⟨hempty, htable⟩ | ⟨hne, text, hread, hload⟩
  · rw [hempty, htable]
    rfl
  · have hpath : List.isEmpty c.options.table = false := by simpa using hne
    subst hs
    unfold loadTable
    simp only [hpath, Bool.false_eq_true, if_false]
    rw [JobRun.get_bind, hread]
    simp only [hload]
    rfl

/-- After the checks, all that is left of a run are its jobs. -/
theorem perform_eq (h : Accepts w d c files) :
    ∃ s, s.disk = d ∧
      perform c.formats w c.options files { disk := d } = performAll c (jobsFor c w files) s := by
  have hguard : ¬ (!List.isEmpty c.options.out && decide (1 < files.length)) = true := by
    rcases h.single with hout | hlen
    · simp [hout]
    · simp [Nat.not_lt.mpr hlen]
  have hfiles : files.isEmpty = false := by simpa using h.nonempty
  have hload : loadTable c.options.table c.directory { disk := d } = .ok c.table { disk := d } := h.loadTable_eq rfl
  unfold perform
  rw [← h.directory, h.rendering, ← h.colour]
  simp only [hguard, hfiles, if_false, Bool.false_eq_true]
  show ∃ s : Session, _ ∧ EStateM.bind _ _ _ = _
  rw [EStateM.bind, hload]
  dsimp only
  split
  · exact ⟨_, by rfl, rfl⟩
  · exact ⟨_, by rfl, rfl⟩

theorem outcome_isRun (h : Accepts w d c files) :
    ∃ s g, s.disk = d ∧ ReflTransGen (Turn c) (.start s (jobsFor c w files)) g ∧ g.Complete ∧
      (outcome c.formats w c.options files d).session.disk = g.session.disk ∧
      ((outcome c.formats w c.options files d).succeeded = true ↔ g.Finished) := by
  obtain ⟨s, hs, hrun⟩ := h.perform_eq
  obtain ⟨g, hg, hc, ⟨hok, hf⟩ | ⟨⟨e, he⟩, hf⟩⟩ := performAll_isRun c (jobsFor c w files) s
  · have hout : outcome c.formats w c.options files d = ⟨true, g.session⟩ := by
      rw [outcome, hrun, hok, Outcome.of]
    exact ⟨s, g, hs, hg, hc, by rw [hout], by simp [hout, hf]⟩
  · refine ⟨s, g, hs, hg, hc, ?_, ?_⟩ <;> rw [outcome, hrun, he] <;> cases e
    · rfl
    · rfl
    · simp [Outcome.of, hf]
    · simp [Outcome.of, hf]

theorem result (h : Accepts w d c files) (hs : Separate c d (jobsFor c w files))
    (hw : Writable c d (jobsFor c w files)) :
    Result c d (jobsFor c w files) (outcome c.formats w c.options files d).session.disk ∧
      ((outcome c.formats w c.options files d).succeeded = true ↔
        ∀ job ∈ jobsFor c w files, job.Succeeds c d) := by
  obtain ⟨s, g, hd, hg, hc, hdisk, hsucceeded⟩ := h.outcome_isRun
  have hinv : g.Inv c d (jobsFor c w files) := inv_of_run hs hw hd hg
  exact ⟨hdisk ▸ hinv.result hs hc, hsucceeded.trans (hinv.finished_iff hc)⟩

end Accepts
end Command

/-! ### Inputs that include nothing -/

namespace Job
variable {r : Assembly}

/-- The assembly of an input that includes nothing. -/
def plain? (c : JobContext) (d : Disk) (job : Job) : Option Assembly := do
  let tree := d.tree job.directory job.lead
  let text ← (tree.read job.file).toOption
  let program ← ((c.assembler tree).source job.file text).outcome.toOption
  let cells ← (program.encode c.table c.options.strict).toOption
  let image ← (Image.link c.options.strict cells).toOption
  if program.fields.all (!·.isInclusion) then return ⟨job.file, program, cells, image⟩ else none

theorem of_plain? (h : job.plain? c d = some r) :
    ∃ text, (d.tree job.directory job.lead).read job.file = .ok text ∧
      ((c.assembler (d.tree job.directory job.lead)).assemble job.file text).outcome = .ok r ∧
      ∀ q, (c.assembler (d.tree job.directory job.lead)).Parses job.file text q →
        ∀ f ∈ q.fields, f.isInclusion = false := by
  unfold plain? at h
  simp only [Option.bind_eq_bind, Option.bind_eq_some_iff, except_toOption_eq_some, Option.pure_def,
    Option.ite_none_right_eq_some, Option.some.injEq, List.all_eq_true, Bool.not_eq_true'] at h
  obtain ⟨text, hread, p, hp, cells, hcells, image, hlink, hplain, rfl⟩ := h
  refine ⟨text, hread, Assembler.assemble_of_source hp hplain hcells hlink, fun q hq => ?_⟩
  exact hq.unique (Assembler.source_eq_ok.mp hp) ▸ hplain

theorem finishes_iff_of_plain? (h : job.plain? c d = some r) {assembly : Assembly} {image : Image} :
    job.Finishes c (d.tree job.directory job.lead) assembly image ↔
      assembly = r ∧ padded? c r.image = some image := by
  obtain ⟨text, hread, hassemble, -⟩ := of_plain? h
  constructor
  · rintro ⟨text', hread', hassemble', hpad⟩
    cases hread.symm.trans hread'
    cases hassemble.symm.trans hassemble'
    exact ⟨rfl, hpad⟩
  · rintro ⟨rfl, hpad⟩
    exact ⟨text, hread, hassemble, hpad⟩

end Job

theorem separate_of_plain? (hd : (jobs.flatMap (Job.targetKeys c d)).Nodup)
    (hown : ∀ job ∈ jobs, (job.plain? c d).isSome ∧ Path.clean job.file = job.file ∧
      Disk.lead job.directory ++ job.file ∉ jobs.flatMap (Job.targetKeys c d)) : Separate c d jobs := by
  refine ⟨hd, fun job hj p hp => ?_⟩
  obtain ⟨hsome, hclean, hfree⟩ := hown job hj
  obtain ⟨r, hr⟩ := Option.isSome_iff_exists.mp hsome
  obtain ⟨text, hread, -, hplain⟩ := Job.of_plain? hr
  rwa [hp.eq_file hclean fun text' q hread' hparses => ?_]
  cases hread.symm.trans hread'
  exact hplain q hparses

theorem writable_of_isSome
    (h : ∀ job ∈ jobs, ∀ t ∈ job.targets c.options, (d.target c.directory t).toOption.isSome) :
    Writable c d jobs := by
  intro job hj _ t ht
  obtain ⟨place, hplace⟩ := Option.isSome_iff_exists.mp (h job hj t ht)
  exact ⟨place, except_toOption_eq_some.mp hplace⟩

namespace Command

/-- What is left on the disk by jobs that do not get in each other's way: the products of those that succeed,
and otherwise what was there. It is the same however they take turns, and in whatever order they are done
one after the other. If symbol tables are laid out in another way, it is the same but for these. -/
theorem outcome_result {w : Surroundings} {files : List Text} (h : Accepts w d c files)
    (hs : Separate c d (jobsFor c w files)) (hw : Writable c d (jobsFor c w files)) :
    Result c d (jobsFor c w files) (outcome c.formats w c.options files d).session.disk ∧
    ((outcome c.formats w c.options files d).succeeded = true ↔
      ∀ job ∈ jobsFor c w files, job.Succeeds c d) ∧
    (∀ f g, ReflTransGen (Turn { c with formats := f }) (.start { disk := d } (jobsFor c w files)) g →
      g.Complete →
        Result { c with formats := f } d (jobsFor c w files) g.session.disk ∧
        SameFiles c f d (jobsFor c w files) (outcome c.formats w c.options files d).session.disk
          g.session.disk ∧
        (g.Finished ↔ (outcome c.formats w c.options files d).succeeded = true)) ∧
    (∀ f, ∀ order : List Job, order.Perm (jobsFor c w files) → ∃ s,
      (performAll { c with formats := f } order { disk := d } = .ok () s ∧
          (outcome c.formats w c.options files d).succeeded = true ∨
        (∃ e, performAll { c with formats := f } order { disk := d } = .error e s) ∧
          (outcome c.formats w c.options files d).succeeded = false) ∧
      Result { c with formats := f } d (jobsFor c w files) s.disk ∧
      SameFiles c f d (jobsFor c w files) (outcome c.formats w c.options files d).session.disk s.disk) := by
  obtain ⟨hresult, hstatus⟩ := h.result hs hw
  refine ⟨hresult, hstatus, fun f g hg hc => ?_, fun f order hp => ?_⟩
  · have hs' := hs.withFormats f
    have hinv : g.Inv { c with formats := f } d (jobsFor c w files) := inv_of_run hs' hw rfl hg
    have hresult' := hinv.result hs' hc
    exact ⟨hresult', hresult.sameFiles hresult', (hinv.finished_iff hc).trans hstatus.symm⟩
  · have hs' := (hs.withFormats f).perm hp
    have hw' : Writable { c with formats := f } d order := fun job hj => hw job (hp.mem_iff.mp hj)
    obtain ⟨g, hg, hc, hrun⟩ := performAll_isRun { c with formats := f } order { disk := d }
    have hinv : g.Inv { c with formats := f } d order := inv_of_run hs' hw' rfl hg
    have hresult' := (hinv.result hs' hc).perm hp
    have hfinished : g.Finished ↔ (outcome c.formats w c.options files d).succeeded = true := by
      rw [hinv.finished_iff hc, hstatus]
      exact forall_congr' fun job => by rw [hp.mem_iff]; rfl
    rw [hfinished, Bool.not_eq_true] at hrun
    exact ⟨g.session, hrun, hresult', hresult.sameFiles hresult'⟩

/-- Two inputs that are to fill one word, the second of which is too large for that, and a file where its
output would go. -/
theorem outcome_result_filled :
    let w : Surroundings := { workingDirectory := lit "/w" }
    let c : JobContext :=
      { formats := ⟨fun _ => [], fun _ => [], fun _ => [], SymbolTable.source⟩
        options := { format := lit "hex", fill := 1, debug := true }
        rendering := .hex, table := .builtin, directory := [lit "w"], colour := false }
    let files : List Text := [lit "a.s", lit "b.s"]
    let d : Disk := .ofFiles [lit "w"] [(lit "a.s", lit ".data\n.byte 1\n"),
      (lit "b.s", lit ".data\n.byte 1, 2, 3\n"), (lit "b.hex", lit "old")]
    let final := outcome c.formats w c.options files d
    Accepts w d c files ∧ Separate c d (jobsFor c w files) ∧ Writable c d (jobsFor c w files) ∧
      final.succeeded = false ∧
      final.session.disk.entries.lookup (lit "w/a.hex") = some (.file (lit "01\n00\n")) ∧
      final.session.disk.entries.lookup (lit "w/a.ac16db") = some (.file (lit "/w/a.s")) ∧
      final.session.disk.entries.lookup (lit "w/b.hex") = some (.file (lit "old")) := by
  intro w c files d final
  let a : Job := .ofPath c.options w.workingDirectory (lit "a.s")
  let b : Job := .ofPath c.options w.workingDirectory (lit "b.s")
  have haccepts : Accepts w d c files :=
    ⟨by simp [files], by decide +kernel, .inl rfl, by decide +kernel, .inl ⟨rfl, rfl⟩, rfl⟩
  have hwritable : Writable c d (jobsFor c w files) := writable_of_isSome (by decide +kernel)
  have hseparate : Separate c d (jobsFor c w files) :=
    separate_of_plain? (by decide +kernel) (by decide +kernel)
  obtain ⟨hresult, hstatus, -⟩ := outcome_result haccepts hseparate hwritable
  have ha : ((a.plain? c d).bind fun r => (Job.padded? c r.image).map (·.render c.rendering)) =
      some (lit "01\n00\n") := by decide +kernel
  have hb : (b.plain? c d).map (fun r => Job.padded? c r.image) = some none := by decide +kernel
  simp only [Option.bind_eq_some_iff, Option.map_eq_some_iff] at ha hb
  obtain ⟨r, hr, image, hpad, hrender⟩ := ha
  obtain ⟨r', hr', hlarge⟩ := hb
  have hgood := (Job.finishes_iff_of_plain? hr).mpr ⟨rfl, hpad⟩
  have hbad : ¬ b.Succeeds c d := by
    rintro ⟨assembly, image', hf⟩
    cases hlarge.symm.trans ((Job.finishes_iff_of_plain? hr').mp hf).2
  refine ⟨haccepts, hseparate, hwritable, ?_, ?_, ?_, ?_⟩
  · rw [← Bool.not_eq_true, hstatus]
    exact fun hall => hbad (hall b (.tail _ (.head _)))
  · rw [← hrender]
    exact hresult.lookup_image (.head _) hgood (by decide +kernel)
  · exact hresult.lookup_symbols rfl (.head _) hgood (by decide +kernel)
  · rw [hresult.failed b (.tail _ (.head _)) hbad (lit "w/b.hex") (by decide +kernel)]
    decide +kernel

/-- An image is written although it is larger than asked for, as nothing is filled up to less than one word.
The symbol table next to it is the same table in both of two runs, but not the same bytes. -/
theorem outcome_unfilled :
    let w : Surroundings := { workingDirectory := lit "/w" }
    let upward : Formats :=
      ⟨fun _ => [], fun _ => [], fun _ => [], fun t => t.symbols.map fun y => y.line.toNat.toUInt8⟩
    let downward : Formats := { upward with symbols := fun t => (upward.symbols t).reverse }
    let c : JobContext :=
      { formats := upward, options := { fill := -1, debug := true }
        rendering := .binary, table := .builtin, directory := [lit "w"], colour := false }
    let files : List Text := [lit "a.s"]
    let d : Disk := .ofFiles [lit "w"] [(lit "a.s", lit ".data\n.byte 1\n.byte 2\n")]
    let final (f : Formats) := outcome f w c.options files d
    (Accepts w d c files ∧ Separate c d (jobsFor c w files) ∧ Writable c d (jobsFor c w files)) ∧
    (∃ job assembly, jobsFor c w files = [job] ∧
      job.Finishes c (d.tree job.directory job.lead) assembly assembly.image ∧
      assembly.image.pad c.options.fill = .error ⟨-2, 2⟩) ∧
    (final upward).succeeded = true ∧
    (final upward).session.disk.entries.lookup (lit "w/a.bin") = some (.file [1, 2]) ∧
    (final upward).session.disk.entries.lookup (lit "w/a.ac16db") = some (.file [2, 3]) ∧
    (final downward).session.disk.entries.lookup (lit "w/a.ac16db") = some (.file [3, 2]) := by
  intro w upward downward c files d final
  let a : Job := .ofPath c.options w.workingDirectory (lit "a.s")
  have haccepts : Accepts w d c files :=
    ⟨by simp [files], by decide +kernel, .inl rfl, by decide +kernel, .inl ⟨rfl, rfl⟩, rfl⟩
  have hwritable : Writable c d (jobsFor c w files) := writable_of_isSome (by decide +kernel)
  have hseparate : Separate c d (jobsFor c w files) :=
    separate_of_plain? (by decide +kernel) (by decide +kernel)
  have hsteps : (a.plain? c d).map (fun r => (r.image.raw, r.cells.map fun x => x.position.line.toNat.toUInt8)) =
      some ([1, 2], [2, 3]) := by decide +kernel
  obtain ⟨r, hr, hboth⟩ := Option.map_eq_some_iff.mp hsteps
  obtain ⟨hraw, hlines⟩ := Prod.mk.inj hboth
  have hfinishes := (Job.finishes_iff_of_plain? hr).mpr ⟨rfl, rfl⟩
  have hlength : r.image.bytes.length = 2 := by simpa [Image.raw] using congrArg List.length hraw
  have hcells : r.cells.length = 2 := by simpa using congrArg List.length hlines
  have hplace : (d.target c.directory (symbolFile a.output)).toOption.map Disk.placeKey =
      some (lit "w/a.ac16db") := by decide +kernel
  have hsymbols (f : Formats) : (final f).session.disk.entries.lookup (lit "w/a.ac16db") =
      some (.file (f.symbols (.ofCells a.source r.cells))) := by
    obtain ⟨hresult, -⟩ := (haccepts.withFormats f).result (hseparate.withFormats f) hwritable
    exact hresult.lookup_symbols rfl (.head _) hfinishes hplace
  have hupward : upward.symbols (.ofCells a.source r.cells) = [2, 3] := by
    have hlist : (SymbolTable.ofCells a.source r.cells).symbols = r.cells.map Symbol.ofCell :=
      SymbolTable.symbols_ofCells (by rw [hcells]; decide)
    show List.map _ _ = _
    rw [hlist, List.map_map, ← hlines]
    rfl
  obtain ⟨hresult, hstatus⟩ := haccepts.result hseparate hwritable
  refine ⟨⟨haccepts, hseparate, hwritable⟩, ⟨a, r, rfl, hfinishes, ?_⟩, ?_, ?_, ?_, ?_⟩
  · refine Image.pad_eq_error.mpr ⟨?_, ?_⟩ <;> rw [hlength] <;> decide
  · rw [hstatus]
    exact List.forall_mem_singleton.mpr ⟨r, _, hfinishes⟩
  · rw [← hraw]
    exact hresult.lookup_image (.head _) hfinishes (by decide +kernel)
  · rw [hsymbols, hupward]
  · rw [hsymbols]
    show some (DiskEntry.file (upward.symbols _).reverse) = _
    rw [hupward]
    rfl

end Command
end AccAsm
