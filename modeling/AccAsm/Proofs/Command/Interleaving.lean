import AccAsm.Command.Run
import AccAsm.Proofs.Command.Job
import Mathlib.Data.List.Nodup
import Mathlib.Logic.Relation

/-! # Jobs that take turns

The jobs of a run share a disk. `Turn` lets any of them go on: by preparing what it writes, for which each
file may be read from the disk as it was at any time so far, or by writing one of its products. As long as no
job writes where another one writes or looks (`Separate`), every job prepares what it would have prepared on
the disk at the start, and every disk on the way is that one with some of these products written. This is
the invariant `Progress.Inv`, which each turn keeps (`Turn.inv`). When all jobs are done, it leaves one
possibility for what is on the disk (`Result`), up to the bytes that stand for a symbol table
(`Result.sameFiles`). -/

namespace AccAsm
open Relation (ReflTransGen)

/-! ### What jobs are to write -/

theorem eq_of_nodup_filterMap {α β : Type} {f : α → Option β} {l : List α} (h : (l.filterMap f).Nodup) {a b : α}
    (ha : a ∈ l) (hb : b ∈ l) {k : β} (hfa : f a = some k) (hfb : f b = some k) : a = b := by
  by_contra hne
  have hsymm : Std.Symm fun x y => ∀ k, f x = some k → ∀ l, f y = some l → k ≠ l :=
    ⟨fun x y h k hk l hl => (h l hl k hk).symm⟩
  exact (List.pairwise_filterMap.mp h).forall ha hb hne k hfa k hfb rfl

namespace Job
variable {c : JobContext} {d : Disk} {job : Job}

/-- What a job writes that finds the disk as it is. -/
def yield? (c : JobContext) (d : Disk) (job : Job) : Option (List Product) :=
  job.products? c (d.tree job.directory job.lead)

/-- The input is there, and its assembly and padding succeed. -/
def Succeeds (c : JobContext) (d : Disk) (job : Job) : Prop :=
  ∃ assembly image, job.Finishes c (d.tree job.directory job.lead) assembly image

/-- The keys of the places that the targets of a job lead to. -/
def targetKeys (c : JobContext) (d : Disk) (job : Job) : List Text :=
  (job.targets c.options).filterMap fun t => (d.target c.directory t).toOption.map Disk.placeKey

/-- The keys of the places that the symbol table of a job goes to, if one is wanted. -/
def symbolKeys (c : JobContext) (d : Disk) (job : Job) : List Text :=
  if c.options.debug then ((d.target c.directory (symbolFile job.output)).toOption.map Disk.placeKey).toList else []

/-- The file `x.2` goes to the place `x.1` as a product of the job. -/
def Plans (c : JobContext) (d : Disk) (job : Job) (x : List Text × Text) : Prop :=
  ∃ ws w, job.yield? c d = some ws ∧ w ∈ ws ∧ d.target c.directory (w.path job.output) = .ok x.1 ∧
    x.2 = w.contents c

theorem succeeds_iff : job.Succeeds c d ↔ ∃ ws, job.yield? c d = some ws := by
  unfold yield?
  simp only [products?_eq_some]
  constructor
  · rintro ⟨assembly, image, h⟩
    exact ⟨_, assembly, image, h, rfl⟩
  · rintro ⟨_, assembly, image, h, -⟩
    exact ⟨assembly, image, h⟩

theorem map_path_of_yield? {ws : List Product} (h : job.yield? c d = some ws) :
    ws.map (Product.path job.output) = job.targets c.options := by
  obtain ⟨assembly, image, -, rfl⟩ := products?_eq_some.mp h
  exact map_path_products assembly image

theorem mem_targetKeys {key : Text} :
    key ∈ job.targetKeys c d ↔
      ∃ t ∈ job.targets c.options, ∃ place, d.target c.directory t = .ok place ∧ Disk.placeKey place = key := by
  simp only [targetKeys, List.mem_filterMap, Option.map_eq_some_iff, except_toOption_eq_some]

theorem Plans.succeeds {x : List Text × Text} (h : job.Plans c d x) : job.Succeeds c d := by
  obtain ⟨ws, -, hws, -⟩ := h
  exact succeeds_iff.mpr ⟨ws, hws⟩

theorem Plans.mem_targetKeys {x : List Text × Text} (h : job.Plans c d x) :
    Disk.placeKey x.1 ∈ job.targetKeys c d := by
  obtain ⟨ws, w, hws, hw, htarget, -⟩ := h
  have hmem : w.path job.output ∈ job.targets c.options := map_path_of_yield? hws ▸ List.mem_map_of_mem hw
  exact Job.mem_targetKeys.mpr ⟨_, hmem, x.1, htarget, rfl⟩

theorem Plans.not_directory {x : List Text × Text} (h : job.Plans c d x) :
    d.entries.lookup (Disk.placeKey x.1) ≠ some .directory := by
  obtain ⟨_, _, _, _, htarget, _⟩ := h
  exact Disk.lookup_of_target htarget

/-- Products that go to different places can be told apart by them. -/
theorem Plans.contents_unique {x y : List Text × Text} (hd : (job.targetKeys c d).Nodup) (hx : job.Plans c d x)
    (hy : job.Plans c d y) (hkey : Disk.placeKey x.1 = Disk.placeKey y.1) : x.2 = y.2 := by
  obtain ⟨ws, v, hws, hv, hvt, hxc⟩ := hx
  obtain ⟨ws', w, hws', hw, hwt, hyc⟩ := hy
  obtain rfl : ws = ws' := Option.some.inj (hws.symm.trans hws')
  have hkeys : (d.target c.directory (v.path job.output)).toOption.map Disk.placeKey =
      some (Disk.placeKey x.1) := by
    rw [hvt]
    rfl
  have hkeys' : (d.target c.directory (w.path job.output)).toOption.map Disk.placeKey =
      some (Disk.placeKey x.1) := by
    rw [hwt, hkey]
    rfl
  rw [targetKeys, ← map_path_of_yield? hws, List.filterMap_map] at hd
  rw [hxc, hyc, eq_of_nodup_filterMap hd hv hw hkeys hkeys']

end Job

variable {c : JobContext} {d : Disk} {jobs : List Job} {job : Job}

/-- The targets of the jobs are different files, and no job looks up one of them. -/
structure Separate (c : JobContext) (d : Disk) (jobs : List Job) : Prop where
  distinct : (jobs.flatMap (Job.targetKeys c d)).Nodup
  unread : ∀ job ∈ jobs, ∀ p, job.Looks c (d.tree job.directory job.lead) p →
    Disk.lead job.directory ++ p ∉ jobs.flatMap (Job.targetKeys c d)

/-- Whatever a job writes can be written. -/
def Writable (c : JobContext) (d : Disk) (jobs : List Job) : Prop :=
  ∀ job ∈ jobs, job.Succeeds c d → ∀ t ∈ job.targets c.options, ∃ place, d.target c.directory t = .ok place

/-- The disk `d'` is `d` with the products of successful jobs on it and everything else as it was. -/
structure Result (c : JobContext) (d : Disk) (jobs : List Job) (d' : Disk) : Prop where
  image : ∀ job ∈ jobs, ∀ assembly image, job.Finishes c (d.tree job.directory job.lead) assembly image →
    ∃ place, d.target c.directory job.output = .ok place ∧
      d'.entries.lookup (Disk.placeKey place) = some (.file (image.render c.rendering))
  symbols : c.options.debug → ∀ job ∈ jobs, ∀ assembly image,
    job.Finishes c (d.tree job.directory job.lead) assembly image →
    ∃ place, d.target c.directory (symbolFile job.output) = .ok place ∧
      d'.entries.lookup (Disk.placeKey place) =
        some (.file (c.formats.symbols (.ofCells job.source assembly.cells)))
  failed : ∀ job ∈ jobs, ¬ job.Succeeds c d → ∀ key ∈ job.targetKeys c d,
    d'.entries.lookup key = d.entries.lookup key
  others : ∀ key, (∀ job ∈ jobs, job.Succeeds c d → key ∉ job.targetKeys c d) →
    d'.entries.lookup key = d.entries.lookup key

/-- `d'` is `d` with some products of the jobs written. -/
def Advanced (c : JobContext) (d : Disk) (jobs : List Job) (writes : List (List Text × Text)) (d' : Disk) : Prop :=
  (∀ x ∈ writes, ∃ job ∈ jobs, job.Plans c d x) ∧ d' = d.putAll writes

namespace Separate

theorem disjoint (h : Separate c d jobs) {job' : Job} (hj : job ∈ jobs) (hj' : job' ∈ jobs) {key : Text}
    (hk : key ∈ job.targetKeys c d) (hk' : key ∈ job'.targetKeys c d) : job = job' := by
  by_contra hne
  have hsymm : Std.Symm (Function.onFun List.Disjoint (Job.targetKeys c d)) := ⟨fun _ _ h _ hk hk' => h hk' hk⟩
  exact (List.nodup_flatMap.mp h.distinct).2.forall hj hj' hne hk hk'

theorem contents_unique (h : Separate c d jobs) {writes : List (List Text × Text)}
    (hw : ∀ x ∈ writes, ∃ job ∈ jobs, job.Plans c d x) {x : List Text × Text} (hx : x ∈ writes) :
    ∀ y ∈ writes, Disk.placeKey y.1 = Disk.placeKey x.1 → y.2 = x.2 := by
  intro y hy hkey
  obtain ⟨job, hj, hplans⟩ := hw x hx
  obtain ⟨job', hj', hplans'⟩ := hw y hy
  obtain rfl := h.disjoint hj hj' hplans.mem_targetKeys (hkey ▸ hplans'.mem_targetKeys)
  exact hplans'.contents_unique ((List.nodup_flatMap.mp h.distinct).1 job hj) hplans hkey

/-- A job that reads from disks on the way prepares what it would have prepared at the start. -/
theorem products?_eq (h : Separate c d jobs) (hj : job ∈ jobs) {seen : List Disk}
    (hseen : ∀ d' ∈ seen, ∃ writes, Advanced c d jobs writes d') {tree : SourceTree}
    (ht : ∀ p, ∃ d' ∈ seen, tree.read p = d'.readBelow job.directory job.lead p) :
    job.products? c tree = job.yield? c d := by
  refine Job.products?_congr fun p hp => ?_
  obtain ⟨d', hd', hread⟩ := ht p
  obtain ⟨writes, hwrites, rfl⟩ := hseen d' hd'
  rw [hread]
  refine Disk.toOption_readBelow_putAll (fun x hx hkey => h.unread job hj p hp ?_) job.lead
  obtain ⟨job', hj', hplans⟩ := hwrites x hx
  exact hkey ▸ List.mem_flatMap.mpr ⟨job', hj', hplans.mem_targetKeys⟩

end Separate

/-! ### Taking turns -/

inductive Stage where
  | waiting
  /-- What is still to be written. -/
  | writing (left : List Product)
  | failed
deriving DecidableEq, Repr

/-- Where a run stands. -/
structure Progress where
  session : Session
  /-- The disk as it was at any time so far. -/
  seen : List Disk
  stages : List (Job × Stage)

/-- A job goes on. Other jobs may write while it reads, so each file it reads may be from another time. -/
inductive Moves (c : JobContext) (seen : List Disk) (job : Job) : Stage → Session → Stage → Session → Prop
  | prepare {tree : SourceTree} {s s' : Session} {ws : List Product}
      (ht : ∀ p, ∃ d ∈ seen, tree.read p = d.readBelow job.directory job.lead p)
      (h : JobRun.prepare c job tree s = .ok ws s') : Moves c seen job .waiting s (.writing ws) s'
  | refuse {tree : SourceTree} {s s' : Session} {e : JobFailure}
      (ht : ∀ p, ∃ d ∈ seen, tree.read p = d.readBelow job.directory job.lead p)
      (h : JobRun.prepare c job tree s = .error e s') : Moves c seen job .waiting s .failed s'
  | store {w : Product} {ws : List Product} {s s' : Session} (h : JobRun.store c job w s = .ok () s') :
      Moves c seen job (.writing (w :: ws)) s (.writing ws) s'
  | stop {w : Product} {ws : List Product} {s s' : Session} {e : JobFailure}
      (h : JobRun.store c job w s = .error e s') : Moves c seen job (.writing (w :: ws)) s .failed s'

/-- One of the jobs goes on. -/
inductive Turn (c : JobContext) : Progress → Progress → Prop
  | of_moves {seen : List Disk} {job : Job} {stage stage' : Stage} {s s' : Session}
      (h : Moves c seen job stage s stage' s') (before after : List (Job × Stage)) :
      Turn c ⟨s, seen, before ++ (job, stage) :: after⟩ ⟨s', s'.disk :: seen, before ++ (job, stage') :: after⟩

namespace Progress

def start (s : Session) (jobs : List Job) : Progress := ⟨s, [s.disk], jobs.map fun job => (job, .waiting)⟩

/-- No job has anything left to do. -/
def Complete (g : Progress) : Prop := ∀ x ∈ g.stages, x.2 = .writing [] ∨ x.2 = .failed

/-- No job has failed or has anything left to do. -/
def Finished (g : Progress) : Prop := ∀ x ∈ g.stages, x.2 = .writing []

end Progress

/-! ### What each turn keeps -/

/-- What the stage of a job says about the products that have been written. -/
def Stage.Agrees (c : JobContext) (d : Disk) (writes : List (List Text × Text)) (job : Job) : Stage → Prop
  | waiting => True
  | writing left => ∃ done, job.yield? c d = some (done ++ left) ∧
      ∀ w ∈ done, ∃ place, d.target c.directory (w.path job.output) = .ok place ∧ (place, w.contents c) ∈ writes
  | failed => job.yield? c d = none

structure Progress.Inv (c : JobContext) (d : Disk) (jobs : List Job) (g : Progress) : Prop where
  all_jobs : g.stages.map Prod.fst = jobs
  seen : ∀ d' ∈ g.seen, ∃ writes, Advanced c d jobs writes d'
  written : ∃ writes, Advanced c d jobs writes g.session.disk ∧ ∀ x ∈ g.stages, x.2.Agrees c d writes x.1

theorem Stage.Agrees.mono {writes : List (List Text × Text)} {stage : Stage} (h : stage.Agrees c d writes job)
    (more : List (List Text × Text)) : stage.Agrees c d (writes ++ more) job := by
  cases stage with
  | waiting => trivial
  | failed => exact h
  | writing left =>
    obtain ⟨done, hyield, hdone⟩ := h
    refine ⟨done, hyield, fun w hw => ?_⟩
    obtain ⟨place, htarget, hmem⟩ := hdone w hw
    exact ⟨place, htarget, List.mem_append_left _ hmem⟩

/-- Where a product goes that is next to be written. -/
theorem Stage.Agrees.exists_target {writes : List (List Text × Text)} {w : Product} {ws : List Product}
    (h : (writing (w :: ws)).Agrees c d writes job) (hj : job ∈ jobs) (hw : Writable c d jobs)
    {s : Session} (hs : Advanced c d jobs writes s.disk) :
    ∃ place, job.Plans c d (place, w.contents c) ∧ s.disk.target c.directory (w.path job.output) = .ok place ∧
      d.target c.directory (w.path job.output) = .ok place := by
  obtain ⟨done, hyield, -⟩ := h
  have hmem : w.path job.output ∈ job.targets c.options := by
    rw [← Job.map_path_of_yield? hyield]
    exact List.mem_map_of_mem (by simp)
  obtain ⟨place, htarget⟩ := hw job hj (Job.succeeds_iff.mpr ⟨_, hyield⟩) _ hmem
  refine ⟨place, ⟨_, w, hyield, by simp, htarget, rfl⟩, ?_, htarget⟩
  rw [hs.2]
  refine Disk.target_putAll (fun x hx => ?_) htarget
  obtain ⟨_, -, hplans⟩ := hs.1 x hx
  exact hplans.not_directory

/-- What a turn of one job adds to the disk is a product of that job. -/
theorem Moves.agrees {seen : List Disk} {stage stage' : Stage} {s s' : Session} {writes : List (List Text × Text)}
    (h : Moves c seen job stage s stage' s') (hs : Separate c d jobs) (hw : Writable c d jobs) (hj : job ∈ jobs)
    (hseen : ∀ d' ∈ seen, ∃ writes, Advanced c d jobs writes d') (hdisk : Advanced c d jobs writes s.disk)
    (hstage : stage.Agrees c d writes job) :
    ∃ more, Advanced c d jobs (writes ++ more) s'.disk ∧ stage'.Agrees c d (writes ++ more) job := by
  cases h with
  | prepare ht h =>
    obtain ⟨ho, hd⟩ := JobRun.prepare_computes.of_ok h
    refine ⟨[], ?_, [], ?_, by simp⟩
    · rwa [List.append_nil, hd]
    · rwa [← hs.products?_eq hj hseen ht]
  | refuse ht h =>
    obtain ⟨ho, hd⟩ := JobRun.prepare_computes.of_error h
    refine ⟨[], ?_, ?_⟩
    · rwa [List.append_nil, hd]
    · rwa [Stage.Agrees, ← hs.products?_eq hj hseen ht]
  | @store w ws _ _ h =>
    obtain ⟨place, hplans, htarget, hfirst⟩ := hstage.exists_target hj hw hdisk
    obtain ⟨t, hrun, hd⟩ := JobRun.store_eq_ok htarget
    cases h.symm.trans hrun
    obtain ⟨done, hyield, hdone⟩ := hstage.mono [(place, w.contents c)]
    refine ⟨[(place, w.contents c)], ⟨?_, ?_⟩, done ++ [w], ?_, ?_⟩
    · refine List.forall_mem_append.mpr ⟨hdisk.1, List.forall_mem_singleton.mpr ⟨job, hj, hplans⟩⟩
    · rw [hd, hdisk.2, Disk.putAll_concat]
    · rwa [List.append_assoc]
    · refine List.forall_mem_append.mpr ⟨hdone, List.forall_mem_singleton.mpr ⟨place, hfirst, by simp⟩⟩
  | stop h =>
    obtain ⟨place, -, htarget, -⟩ := hstage.exists_target hj hw hdisk
    obtain ⟨t, hrun, -⟩ := JobRun.store_eq_ok htarget
    cases h.symm.trans hrun

theorem Turn.inv {g g' : Progress} (h : Turn c g g') (hs : Separate c d jobs) (hw : Writable c d jobs)
    (hi : g.Inv c d jobs) : g'.Inv c d jobs := by
  obtain ⟨hm, before, after⟩ := h
  rename_i seen job stage stage' s s'
  obtain ⟨hjobs, hseen, writes, hdisk, hstages⟩ := hi
  have hj : job ∈ jobs := by
    rw [← hjobs]
    simp
  obtain ⟨hbefore, hrest⟩ := List.forall_mem_append.mp hstages
  obtain ⟨hstage, hafter⟩ := List.forall_mem_cons.mp hrest
  obtain ⟨more, hdisk', hstage'⟩ := hm.agrees hs hw hj hseen hdisk hstage
  refine ⟨?_, ?_, writes ++ more, hdisk', ?_⟩
  · rw [← hjobs, List.map_append, List.map_append]
    rfl
  · exact List.forall_mem_cons.mpr ⟨⟨_, hdisk'⟩, hseen⟩
  · refine List.forall_mem_append.mpr ⟨fun x hx => (hbefore x hx).mono more, ?_⟩
    exact List.forall_mem_cons.mpr ⟨hstage', fun x hx => (hafter x hx).mono more⟩

theorem inv_start (s : Session) (jobs : List Job) : (Progress.start s jobs).Inv c s.disk jobs := by
  have hstart : Advanced c s.disk jobs [] s.disk := ⟨by simp, rfl⟩
  refine ⟨?_, List.forall_mem_singleton.mpr ⟨[], hstart⟩, [], hstart, ?_⟩
  · simp [Progress.start, Function.comp_def]
  · intro x hx
    obtain ⟨job, -, rfl⟩ := List.mem_map.mp hx
    trivial

/-- The invariant holds however the jobs have taken turns. -/
theorem inv_of_run {s : Session} {g : Progress} (hs : Separate c d jobs) (hw : Writable c d jobs) (hd : s.disk = d)
    (hr : ReflTransGen (Turn c) (.start s jobs) g) : g.Inv c d jobs := by
  induction hr with
  | refl => exact hd ▸ inv_start s jobs
  | tail _ hstep ih => exact hstep.inv hs hw ih

/-! ### The end of a run -/

namespace Progress.Inv
variable {g : Progress}

theorem exists_stage (hi : g.Inv c d jobs) (hj : job ∈ jobs) : ∃ stage, (job, stage) ∈ g.stages := by
  rw [← hi.all_jobs] at hj
  obtain ⟨⟨_, stage⟩, hmem, rfl⟩ := List.mem_map.mp hj
  exact ⟨stage, hmem⟩

theorem lookup_product (hi : g.Inv c d jobs) (hs : Separate c d jobs) (hc : g.Complete) (hj : job ∈ jobs)
    {ws : List Product} (hws : job.yield? c d = some ws) {w : Product} (hw : w ∈ ws) :
    ∃ place, d.target c.directory (w.path job.output) = .ok place ∧
      g.session.disk.entries.lookup (Disk.placeKey place) = some (.file (w.contents c)) := by
  obtain ⟨stage, hstage⟩ := hi.exists_stage hj
  obtain ⟨writes, ⟨hplans, hdisk⟩, hagrees⟩ := hi.written
  have hjob := hagrees _ hstage
  rcases hc _ hstage with hdone | hfailed
  · dsimp only at hdone hjob
    rw [hdone] at hjob
    obtain ⟨done, hyield, hwritten⟩ := hjob
    rw [List.append_nil] at hyield
    cases hws.symm.trans hyield
    obtain ⟨place, htarget, hmem⟩ := hwritten w hw
    rw [hdisk]
    exact ⟨place, htarget, Disk.lookup_putAll_of_mem hmem (hs.contents_unique hplans hmem)⟩
  · dsimp only at hfailed hjob
    rw [hfailed] at hjob
    cases hws.symm.trans hjob

theorem lookup_other (hi : g.Inv c d jobs) {key : Text}
    (hk : ∀ job ∈ jobs, job.Succeeds c d → key ∉ job.targetKeys c d) :
    g.session.disk.entries.lookup key = d.entries.lookup key := by
  obtain ⟨writes, ⟨hplans, hdisk⟩, -⟩ := hi.written
  rw [hdisk]
  refine Disk.lookup_putAll_of_notMem fun x hx hkey => ?_
  obtain ⟨job, hj, hx⟩ := hplans x hx
  exact hk job hj hx.succeeds (hkey ▸ hx.mem_targetKeys)

theorem result (hi : g.Inv c d jobs) (hs : Separate c d jobs) (hc : g.Complete) :
    Result c d jobs g.session.disk where
  image job hj assembly image hf := by
    have hyield : job.yield? c d = some _ := Job.products?_eq_some.mpr ⟨assembly, image, hf, rfl⟩
    exact hi.lookup_product hs hc hj hyield (w := .image image) (.head _)
  symbols hdebug job hj assembly image hf := by
    have hyield : job.yield? c d = some _ := Job.products?_eq_some.mpr ⟨assembly, image, hf, rfl⟩
    refine hi.lookup_product hs hc hj hyield (w := .symbols (.ofCells job.source assembly.cells)) ?_
    rw [Job.products, if_pos hdebug]
    exact .tail _ (.head _)
  failed job hj hfail key hk := by
    refine hi.lookup_other fun job' hj' hsucceeds hk' => hfail ?_
    exact hs.disjoint hj hj' hk hk' ▸ hsucceeds
  others key hk := hi.lookup_other hk

theorem finished_iff (hi : g.Inv c d jobs) (hc : g.Complete) :
    g.Finished ↔ ∀ job ∈ jobs, job.Succeeds c d := by
  obtain ⟨writes, -, hagrees⟩ := hi.written
  constructor
  · intro hf job hj
    obtain ⟨stage, hstage⟩ := hi.exists_stage hj
    have hjob := hagrees _ hstage
    have hdone := hf _ hstage
    dsimp only at hdone hjob
    rw [hdone] at hjob
    obtain ⟨done, hyield, -⟩ := hjob
    exact Job.succeeds_iff.mpr ⟨_, hyield⟩
  · rintro hall ⟨job, stage⟩ hx
    refine (hc _ hx).resolve_right fun hfailed => ?_
    have hj : job ∈ jobs := hi.all_jobs ▸ List.mem_map_of_mem hx
    obtain ⟨ws, hws⟩ := Job.succeeds_iff.mp (hall job hj)
    have hjob := hagrees _ hx
    dsimp only at hfailed hjob
    rw [hfailed] at hjob
    cases hws.symm.trans hjob

end Progress.Inv

theorem Separate.perm {order : List Job} (h : Separate c d jobs) (hp : order.Perm jobs) : Separate c d order := by
  have hkeys : (order.flatMap (Job.targetKeys c d)).Perm (jobs.flatMap (Job.targetKeys c d)) := hp.flatMap_right _
  refine ⟨hkeys.nodup_iff.mpr h.distinct, fun job hj p hp' hmem => ?_⟩
  exact h.unread job (hp.mem_iff.mp hj) p hp' (hkeys.mem_iff.mp hmem)

theorem Result.perm {order : List Job} {d' : Disk} (h : Result c d order d') (hp : order.Perm jobs) :
    Result c d jobs d' where
  image job hj := h.image job (hp.mem_iff.mpr hj)
  symbols hdebug job hj := h.symbols hdebug job (hp.mem_iff.mpr hj)
  failed job hj := h.failed job (hp.mem_iff.mpr hj)
  others key hk := h.others key fun job hj => hk job (hp.mem_iff.mp hj)

namespace Result
variable {d' : Disk} {assembly : Assembly} {image : Image} {key : Text}

theorem lookup_image (h : Result c d jobs d') (hj : job ∈ jobs)
    (hf : job.Finishes c (d.tree job.directory job.lead) assembly image)
    (hkey : (d.target c.directory job.output).toOption.map Disk.placeKey = some key) :
    d'.entries.lookup key = some (.file (image.render c.rendering)) := by
  obtain ⟨place, htarget, hlookup⟩ := h.image job hj assembly image hf
  rw [htarget] at hkey
  rw [← Option.some.inj hkey]
  exact hlookup

theorem lookup_symbols (h : Result c d jobs d') (hdebug : c.options.debug) (hj : job ∈ jobs)
    (hf : job.Finishes c (d.tree job.directory job.lead) assembly image)
    (hkey : (d.target c.directory (symbolFile job.output)).toOption.map Disk.placeKey = some key) :
    d'.entries.lookup key = some (.file (c.formats.symbols (.ofCells job.source assembly.cells))) := by
  obtain ⟨place, htarget, hlookup⟩ := h.symbols hdebug job hj assembly image hf
  rw [htarget] at hkey
  rw [← Option.some.inj hkey]
  exact hlookup

end Result

/-! ### Runs that differ in their formats -/

section Formats
variable {f : Formats}

theorem Separate.withFormats (h : Separate c d jobs) (f : Formats) : Separate { c with formats := f } d jobs :=
  ⟨h.distinct, h.unread⟩

/-- The disks have the same files, except that a symbol table may be laid out in another way by `f`. -/
def SameFiles (c : JobContext) (f : Formats) (d : Disk) (jobs : List Job) (d₁ d₂ : Disk) : Prop :=
  ∀ key, f.symbols = c.formats.symbols ∨ key ∉ jobs.flatMap (Job.symbolKeys c d) →
    d₂.entries.lookup key = d₁.entries.lookup key

/-- There is one result of a list of jobs, up to the layout of symbol tables. -/
theorem Result.sameFiles {d₁ d₂ : Disk} (h₁ : Result c d jobs d₁)
    (h₂ : Result { c with formats := f } d jobs d₂) : SameFiles c f d jobs d₁ d₂ := by
  intro key hsame
  by_cases hk : ∀ job ∈ jobs, job.Succeeds c d → key ∉ job.targetKeys c d
  · rw [h₁.others key hk, h₂.others key hk]
  · push Not at hk
    obtain ⟨job, hj, ⟨assembly, image, hf⟩, hk⟩ := hk
    obtain ⟨t, ht, place, htarget, rfl⟩ := Job.mem_targetKeys.mp hk
    have hplace : (d.target c.directory t).toOption.map Disk.placeKey = some (Disk.placeKey place) := by
      rw [htarget]
      rfl
    have hcases : t = job.output ∨ c.options.debug = true ∧ t = symbolFile job.output := by
      unfold Job.targets Options.written at ht
      split at ht
      next hdebug => simpa [hdebug] using ht
      next => exact .inl (List.mem_singleton.mp ht)
    rcases hcases with rfl | ⟨hdebug, rfl⟩
    · rw [h₁.lookup_image hj hf hplace, h₂.lookup_image hj hf hplace]
    · have hmem : Disk.placeKey place ∈ jobs.flatMap (Job.symbolKeys c d) := by
        refine List.mem_flatMap.mpr ⟨job, hj, ?_⟩
        rw [Job.symbolKeys, if_pos hdebug, hplace]
        exact List.mem_singleton_self _
      rw [h₁.lookup_symbols hdebug hj hf hplace, h₂.lookup_symbols hdebug hj hf hplace,
        hsame.resolve_right (not_not_intro hmem)]

end Formats

end AccAsm
