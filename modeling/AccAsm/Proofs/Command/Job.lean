import AccAsm.Command.Job
import AccAsm.Proofs.Disk
import AccAsm.Proofs.Inclusion.Files

/-! # What a job does to the disk

A job first prepares what it writes, and then writes it (`JobRun.perform_eq`). Preparation changes nothing on
the disk. It comes to the products of the job if the input is there and its assembly and padding succeed,
and otherwise ends the job (`JobRun.prepare_computes`). The products depend on the files that the assembly
looks up and on no others (`Job.products?_congr`). -/

namespace AccAsm
open Text (lit)

/-- What a job puts into a file. -/
inductive Product where
  | image (image : Image)
  | symbols (table : SymbolTable)
deriving DecidableEq, Repr

namespace Product

def contents (c : JobContext) : Product → Text
  | image i => i.render c.rendering
  | symbols table => c.formats.symbols table

/-- Where a product goes if the image goes to `output`. -/
def path (output : Text) : Product → Text
  | image _ => output
  | symbols _ => symbolFile output

/-- What is logged about a product. -/
def note : Product → Text
  | image _ => lit "image written"
  | symbols _ => lit "symbol table written"

end Product

def JobContext.assembler (c : JobContext) (tree : SourceTree) : Assembler :=
  { table := c.table, strict := c.options.strict, tree := some tree }

namespace Job
variable {c : JobContext} {tree tree' : SourceTree} {job : Job}

/-- The paths that a job writes to if nothing fails. -/
def targets (o : Options) (job : Job) : List Text := o.written job.output

/-- The image filled up as far as is wanted, unless it is too large. -/
def padded? (c : JobContext) (image : Image) : Option Image :=
  if 0 < c.options.fill then (image.pad c.options.fill).toOption else some image

/-- What is written of a finished assembly and its padded image. -/
def products (c : JobContext) (job : Job) (assembly : Assembly) (image : Image) : List Product :=
  .image image :: if c.options.debug then [.symbols (.ofCells job.source assembly.cells)] else []

/-- What a job writes that finds the files of the tree: nothing, unless the input is there and its assembly
and padding succeed. -/
def products? (c : JobContext) (job : Job) (tree : SourceTree) : Option (List Product) := do
  let text ← (tree.read job.file).toOption
  let assembly ← ((c.assembler tree).assemble job.file text).outcome.toOption
  let image ← padded? c assembly.image
  return job.products c assembly image

/-- A job looks up its input and the files it comes to by inclusions. -/
def Looks (c : JobContext) (job : Job) (tree : SourceTree) (p : Text) : Prop :=
  p = job.file ∨ ∃ text, tree.read job.file = .ok text ∧ (c.assembler tree).Reaches job.file text p

/-- A job looks for nothing but an input that includes nothing. -/
theorem Looks.eq_file {p : Text} (h : job.Looks c tree p) (hc : Path.clean job.file = job.file)
    (hn : ∀ text q, tree.read job.file = .ok text → (c.assembler tree).Parses job.file text q →
      ∀ f ∈ q.fields, f.isInclusion = false) : p = job.file := by
  rcases h with heq | ⟨text, hread, hreach⟩
  · exact heq
  · exact (hreach.eq_first fun q => hn text q hread).trans hc

theorem products?_congr (h : ∀ p, job.Looks c tree p → (tree'.read p).toOption = (tree.read p).toOption) :
    job.products? c tree' = job.products? c tree := by
  have hinput := h job.file (.inl rfl)
  unfold products?
  cases hread : tree.read job.file with
  | error e =>
    rw [hinput, hread]
    rfl
  | ok text =>
    have hsame : (c.assembler tree).FindsSame (c.assembler tree') job.file text :=
      ⟨rfl, rfl, fun node hr => h node (.inr ⟨text, hread, hr⟩)⟩
    rw [hinput, hread]
    show Option.bind ((c.assembler tree').assemble job.file text).outcome.toOption _ =
      Option.bind ((c.assembler tree).assemble job.file text).outcome.toOption _
    rw [hsame.outcome]

/-- The input is there, and its assembly and padding come to `assembly` and `image`. -/
def Finishes (c : JobContext) (job : Job) (tree : SourceTree) (assembly : Assembly) (image : Image) : Prop :=
  ∃ text, tree.read job.file = .ok text ∧
    ((c.assembler tree).assemble job.file text).outcome = .ok assembly ∧ padded? c assembly.image = some image

theorem products?_eq_some {ws : List Product} :
    job.products? c tree = some ws ↔
      ∃ assembly image, job.Finishes c tree assembly image ∧ job.products c assembly image = ws := by
  unfold products? Finishes
  simp only [Option.bind_eq_bind, Option.bind_eq_some_iff, Option.pure_def, Option.some.injEq, except_toOption_eq_some]
  constructor
  · rintro ⟨text, hread, assembly, hassembly, image, himage, hws⟩
    exact ⟨assembly, image, ⟨text, hread, hassembly, himage⟩, hws⟩
  · rintro ⟨assembly, image, ⟨text, hread, hassembly, himage⟩, hws⟩
    exact ⟨text, hread, assembly, hassembly, image, himage, hws⟩

/-- The products go to the targets of the job. -/
theorem map_path_products (assembly : Assembly) (image : Image) :
    (job.products c assembly image).map (Product.path job.output) = job.targets c.options := by
  unfold products targets Options.written
  cases c.options.debug <;> rfl

end Job

namespace JobRun
variable {α β : Type} {c : JobContext} {job : Job} {tree : SourceTree}

/-! ### Runs that leave the disk alone -/

/-- `x` has the result `o`, or fails if that is nothing, and leaves the disk as it is. -/
def Computes (x : JobRun α) (o : Option α) : Prop :=
  ∀ s, ∃ s', s'.disk = s.disk ∧ ((∃ a, x s = .ok a s' ∧ o = some a) ∨ ∃ e, x s = .error e s' ∧ o = none)

theorem computes_pure (a : α) : Computes (pure a) (some a) :=
  fun s => ⟨s, rfl, .inl ⟨a, rfl, rfl⟩⟩

theorem computes_throw (e : JobFailure) : Computes (throw e : JobRun α) none :=
  fun s => ⟨s, rfl, .inr ⟨e, rfl, rfl⟩⟩

theorem Computes.of_ok {x : JobRun α} {o : Option α} (h : Computes x o) {s s' : Session} {a : α}
    (hx : x s = .ok a s') : o = some a ∧ s'.disk = s.disk := by
  obtain ⟨t, hd, ⟨b, hb, ho⟩ | ⟨e, he, -⟩⟩ := h s
  · cases hx.symm.trans hb
    exact ⟨ho, hd⟩
  · cases hx.symm.trans he

theorem Computes.of_error {x : JobRun α} {o : Option α} (h : Computes x o) {s s' : Session} {e : JobFailure}
    (hx : x s = .error e s') : o = none ∧ s'.disk = s.disk := by
  obtain ⟨t, hd, ⟨b, hb, -⟩ | ⟨e', he, ho⟩⟩ := h s
  · cases hx.symm.trans hb
  · cases hx.symm.trans he
    exact ⟨ho, hd⟩

theorem Computes.bind {x : JobRun α} {f : α → JobRun β} {o : Option α} {g : α → Option β} (hx : Computes x o)
    (hf : ∀ a, o = some a → Computes (f a) (g a)) : Computes (x >>= f) (o.bind g) := by
  intro s
  obtain ⟨s', hd, ⟨a, ha, ho⟩ | ⟨e, he, ho⟩⟩ := hx s
  · obtain ⟨s'', hd', h⟩ := hf a ho s'
    have hrun : (x >>= f) s = f a s' := by
      show EStateM.bind x f s = _
      rw [EStateM.bind, ha]
    rw [hrun, ho]
    exact ⟨s'', hd'.trans hd, h⟩
  · refine ⟨s', hd, .inr ⟨e, ?_, by rw [ho]; rfl⟩⟩
    show EStateM.bind x f s = _
    rw [EStateM.bind, he]

theorem Computes.andThen {x : JobRun Unit} {y : JobRun β} {o : Option β} (hx : Computes x (some ()))
    (hy : Computes y o) : Computes (x >>= fun _ => y) o :=
  hx.bind fun _ _ => hy

theorem computes_writeOut (t : Text) : Computes (writeOut t) (some ()) :=
  fun s => ⟨{ s with out := s.out ++ t }, rfl, .inl ⟨(), rfl, rfl⟩⟩

theorem computes_writeErr (t : Text) : Computes (writeErr t) (some ()) :=
  fun s => ⟨{ s with err := s.err ++ t }, rfl, .inl ⟨(), rfl, rfl⟩⟩

theorem computes_seek (place : List Text) (flaw : FileFlaw) : Computes (seek place flaw) (some ()) := by
  unfold seek
  split
  · exact fun s => ⟨{ s with sought := s.sought ++ [place] }, rfl, .inl ⟨(), rfl, rfl⟩⟩
  · exact computes_pure ()

theorem computes_log (e : LogEntry) : Computes (log c job e) (some ()) := by
  unfold log
  split
  · exact computes_writeErr _
  · exact computes_pure ()

theorem computes_forM {f : α → JobRun Unit} (hf : ∀ a, Computes (f a) (some ())) (l : List α) :
    Computes (l.forM f) (some ()) := by
  induction l with
  | nil => exact computes_pure ()
  | cons a l ih => exact (hf a).andThen ih

theorem computes_report (source message : Text) (position : Option Position) :
    Computes (report c job tree source message position : JobRun α) none :=
  (computes_writeErr _).andThen (computes_throw _)

/-! ### Preparation -/

/-- Everything before the first file is written. -/
def prepare (c : JobContext) (job : Job) (tree : SourceTree) : JobRun (List Product) := do
  let text ← readInput job tree none
  let assembly ← assembleInput c job tree text
  dump c assembly
  let image ← padImage c job tree text assembly.image
  return job.products c assembly image

theorem readInput_computes : Computes (readInput job tree none) (tree.read job.file).toOption := by
  unfold readInput
  dsimp only
  cases tree.read job.file with
  | ok text => exact computes_pure text
  | error e => exact (computes_seek _ _).andThen (computes_throw _)

theorem assembleInput_computes (text : Text) :
    Computes (assembleInput c job tree text) ((c.assembler tree).assemble job.file text).outcome.toOption := by
  unfold assembleInput JobContext.assembler
  refine (computes_forM (fun _ => computes_log _) _).andThen ?_
  dsimp only
  generalize (Assembler.assemble _ job.file text).outcome = outcome
  cases outcome with
  | ok assembly => exact computes_pure assembly
  | error failure =>
    cases failure with
    | fault f => exact computes_throw _
    | error e =>
      dsimp only
      split
      · exact (computes_seek _ _).andThen (computes_report _ _ _)
      · exact computes_report _ _ _

theorem dump_computes (a : Assembly) : Computes (dump c a) (some ()) := by
  have hcells : Computes (if c.options.dumpCells then
      writeOut (c.formats.listing (a.cells.map Cell.render)) else pure ()) (some ()) := by
    split
    · exact computes_writeOut _
    · exact computes_pure ()
  have hdump : dump c a =
      if c.options.dumpTree then writeOut (c.formats.tree a.program) >>= fun _ => _ else _ := rfl
  rw [hdump]
  cases c.options.dumpTree with
  | true => exact (computes_writeOut _).andThen hcells
  | false => exact hcells

theorem padImage_computes (text : Text) (image : Image) :
    Computes (padImage c job tree text image) (Job.padded? c image) := by
  unfold padImage Job.padded?
  split
  · cases image.pad c.options.fill with
    | ok padded => exact computes_pure padded
    | error e => exact computes_report _ _ _
  · exact computes_pure image

/-- Preparation comes to the products of the job. -/
theorem prepare_computes : Computes (prepare c job tree) (job.products? c tree) := by
  refine readInput_computes.bind fun text _ => (assembleInput_computes text).bind fun assembly _ => ?_
  refine (dump_computes assembly).andThen ((padImage_computes text assembly.image).bind fun image _ => ?_)
  exact computes_pure _

/-! ### Writing -/

/-- Writes a product. -/
def store (c : JobContext) (job : Job) (w : Product) : JobRun Unit := do
  writeFile c (w.path job.output) (w.contents c)
  log c job ⟨w.note, [(lit "out", .text (w.path job.output))]⟩

theorem get_bind (f : Session → JobRun α) (s : Session) : ((get : JobRun Session) >>= f) s = f s s := rfl

theorem store_eq_ok {s : Session} {w : Product} {place : List Text}
    (h : s.disk.target c.directory (w.path job.output) = .ok place) :
    ∃ s', store c job w s = .ok () s' ∧ s'.disk = s.disk.put place (.file (w.contents c)) := by
  have hwrite : s.disk.write c.directory (w.path job.output) (w.contents c) =
      .ok (s.disk.put place (.file (w.contents c))) := by
    rw [Disk.write, h]
    rfl
  have hfile : writeFile c (w.path job.output) (w.contents c) s =
      .ok () { s with disk := s.disk.put place (.file (w.contents c)) } := by
    unfold writeFile
    rw [get_bind, hwrite]
    rfl
  have hnote : Computes (log c job ⟨w.note, [(lit "out", .text (w.path job.output))]⟩) (some ()) := computes_log _
  obtain ⟨s', hd, ⟨_, hlog, -⟩ | ⟨e, -, he⟩⟩ := hnote { s with disk := s.disk.put place (.file (w.contents c)) }
  · refine ⟨s', ?_, hd⟩
    show EStateM.bind _ _ s = _
    rw [EStateM.bind, hfile]
    exact hlog
  · cases he

theorem forM_products (assembly : Assembly) (image : Image) :
    (job.products c assembly image).forM (store c job) = (do
      writeFile c job.output (image.render c.rendering)
      log c job ⟨lit "image written", [(lit "out", .text job.output)]⟩
      if c.options.debug then
        writeFile c (symbolFile job.output) (c.formats.symbols (.ofCells job.source assembly.cells))
        log c job ⟨lit "symbol table written", [(lit "out", .text (symbolFile job.output))]⟩) := by
  unfold Job.products
  cases c.options.debug with
  | true =>
    show (store c job _ >>= fun _ => store c job _ >>= fun _ => pure ()) = _
    simp only [store, bind_assoc, bind_pure_unit]
    rfl
  | false =>
    show (store c job _ >>= fun _ => pure ()) = _
    simp only [store, bind_assoc]
    rfl

/-- A job prepares its products and then writes them. -/
theorem perform_eq (c : JobContext) (job : Job) (s : Session) :
    perform c job none s =
      (prepare c job (s.disk.tree job.directory job.lead) >>= fun ws => ws.forM (store c job)) s := by
  unfold perform prepare
  simp only [bind_assoc, pure_bind, forM_products]
  rfl

end JobRun
end AccAsm
