import AccAsm.Proofs.Failure
import AccAsm.Proofs.Program.Source
import Mathlib.Data.List.Chain
import Mathlib.Logic.Relation

/-! # Inclusion

The files of an assembly form a graph: `Includes node next` if the file at `node` includes the one at
`next`. The first file stands at its cleaned name, every other one at its path in the tree.

`expansion_exact`: a program is expanded exactly if every file that can be reached is there and
parses, and no cycle can be reached. The result is then the splice of the files' fields (`Spliced`).
The success half is an induction over the expansion: what it went through is readable, off the chain
of open files and on no cycle. For the other half, `Visit` says how the walk stands to the graph while
it goes on, and `Obstacle` what each of its errors shows. -/

namespace AccAsm

namespace Assembler
open Relation (ReflTransGen TransGen)

/-! ### The graph of inclusions -/

section Graph
variable (a : Assembler) (file text : Text)

/-- The file `name` with the text `content` stands at `node` when an assembly starts from `file`. -/
inductive Stands : Text → Text → Text → Prop
  | first : Stands (Path.clean file) file text
  | other {tree : SourceTree} {node content : Text} (hn : node ≠ Path.clean file)
      (ht : a.tree = some tree) (hr : tree.read node = .ok content) : Stands node node content

/-- One of the fields of the file `name` includes the file at `next`. -/
def Names (name : Text) (fields : List Field) (next : Text) : Prop :=
  ∃ position path relative, .inclusion position path ∈ fields ∧
    Quoted.unquote? path.text = some relative ∧ next = target name relative

/-- The file at `node` is there and parses. -/
def Readable (node : Text) : Prop :=
  ∃ name content p, Stands a file text node name content ∧ a.Parses name content p

/-- The file at `node` includes the one at `next`. -/
def Includes (node next : Text) : Prop :=
  ∃ name content p, Stands a file text node name content ∧ a.Parses name content p ∧
    Names name p.fields next

/-- The first file leads to `node` by inclusions. -/
def Reaches (node : Text) : Prop := ReflTransGen (a.Includes file text) (Path.clean file) node

end Graph

/-- `out` is `fields` with the fields of the included files in the place of each inclusion. -/
inductive Spliced (a : Assembler) : Text → List Field → List Field → Prop
  | nil (name : Text) : Spliced a name [] []
  | field {name : Text} {f : Field} {rest out : List Field} (hf : f.isInclusion = false)
      (h : Spliced a name rest out) : Spliced a name (f :: rest) (f :: out)
  | inclusion {name relative content : Text} {position : Position} {path : Lexeme}
      {tree : SourceTree} {p : Program} {rest inner out : List Field}
      (hu : Quoted.unquote? path.text = some relative) (ht : a.tree = some tree)
      (hr : tree.read (target name relative) = .ok content)
      (hp : a.Parses (target name relative) content p)
      (hi : Spliced a (target name relative) p.fields inner) (h : Spliced a name rest out) :
      Spliced a name (.inclusion position path :: rest) (inner ++ out)

variable {a : Assembler} {file text : Text}

theorem Stands.unique {node name name' content content' : Text}
    (h : a.Stands file text node name content) (h' : a.Stands file text node name' content') :
    name = name' ∧ content = content' := by
  cases h with
  | first =>
    cases h' with
    | first => exact ⟨rfl, rfl⟩
    | other hn => exact absurd rfl hn
  | other hn ht hr =>
    cases h' with
    | first => exact absurd rfl hn
    | other _ ht' hr' =>
      cases ht.symm.trans ht'
      exact ⟨rfl, Except.ok.inj (hr.symm.trans hr')⟩

theorem Stands.exists_read {node name content : Text} (h : a.Stands file text node name content)
    (hn : node ≠ Path.clean file) : ∃ tree, a.tree = some tree ∧ tree.read node = .ok content := by
  cases h with
  | first => exact absurd rfl hn
  | other _ ht hr => exact ⟨_, ht, hr⟩

theorem names_head {name relative : Text} {position : Position} {path : Lexeme} {rest : List Field}
    (hu : Quoted.unquote? path.text = some relative) :
    Names name (.inclusion position path :: rest) (target name relative) :=
  ⟨position, path, relative, .head _, hu, rfl⟩

theorem names_cons {name next : Text} {f : Field} {rest : List Field}
    (h : Names name (f :: rest) next) :
    (∃ position path relative, f = .inclusion position path ∧
      Quoted.unquote? path.text = some relative ∧ next = target name relative) ∨
    Names name rest next := by
  obtain ⟨position, path, relative, hm, hu, rfl⟩ := h
  rcases List.mem_cons.mp hm with hf | hm
  · exact .inl ⟨position, path, relative, hf.symm, hu, rfl⟩
  · exact .inr ⟨position, path, relative, hm, hu, rfl⟩

theorem includes_iff_names {node name content next : Text} {p : Program}
    (hs : a.Stands file text node name content) (hp : a.Parses name content p) :
    a.Includes file text node next ↔ Names name p.fields next := by
  constructor
  · rintro ⟨name', content', q, hs', hq, hn⟩
    obtain ⟨rfl, rfl⟩ := hs.unique hs'
    rwa [hp.unique hq]
  · intro hn
    exact ⟨name, content, p, hs, hp, hn⟩

/-- A first file that includes nothing leads nowhere else. -/
theorem Reaches.eq_first {node : Text} (h : a.Reaches file text node)
    (hn : ∀ p, a.Parses file text p → ∀ f ∈ p.fields, f.isInclusion = false) : node = Path.clean file := by
  rcases h.cases_head with heq | ⟨next, ⟨name, content, p, hs, hp, hnames⟩, -⟩
  · exact heq.symm
  · obtain ⟨rfl, rfl⟩ := Stands.unique .first hs
    obtain ⟨position, path, -, hf, -⟩ := hnames
    cases hn p hp _ hf

/-- A walk from the first file stays among the files it reaches. -/
theorem reaches_of_isChain {l : List Text} (hh : l.head? = some (Path.clean file))
    (hw : l.IsChain (a.Includes file text)) : ∀ node ∈ l, a.Reaches file text node := by
  refine hw.induction (a.Reaches file text) l (fun _ _ hxy hx => hx.tail hxy) fun hne => ?_
  rw [Option.some.inj ((List.head?_eq_some_head hne).symm.trans hh)]
  exact ReflTransGen.refl

/-- A walk that comes back to one of its nodes goes around a cycle. -/
theorem transGen_of_isChain {r : Text → Text → Prop} {before : List Text} {last : Text}
    (hl : last ∈ before) (hw : (before ++ [last]).IsChain r) : TransGen r last last := by
  obtain ⟨l₁, l₂, rfl⟩ := List.append_of_mem hl
  rw [List.append_assoc, List.cons_append] at hw
  have hcycle := hw.right_of_append
  cases l₂ with
  | nil => exact .single (List.isChain_pair.mp hcycle)
  | cons next l₂ =>
    rw [List.cons_append, List.isChain_cons_cons] at hcycle
    have hback := List.relationReflTransGen_of_exists_isChain _ hcycle.2 (List.cons_ne_nil _ _)
    exact .head' hcycle.1 (by simpa using hback)

theorem Spliced.unique {name : Text} {fields out out' : List Field} (h : a.Spliced name fields out)
    (h' : a.Spliced name fields out') : out = out' := by
  induction h generalizing out' with
  | nil name => cases h'; rfl
  | field hf _ ih =>
    cases h' with
    | field _ h' => rw [ih h']
    | inclusion => cases hf
  | inclusion hu ht hr hp _ _ ihi ih =>
    cases h' with
    | field hf => cases hf
    | inclusion hu' ht' hr' hp' hi' h' =>
      cases hu.symm.trans hu'
      cases ht.symm.trans ht'
      cases hr.symm.trans hr'
      cases hp.unique hp'
      rw [ihi hi', ih h']

theorem Spliced.isInclusion {name : Text} {fields out : List Field} (h : a.Spliced name fields out) :
    ∀ f ∈ out, f.isInclusion = false := by
  induction h with
  | nil name => simp
  | field hf _ ih => exact List.forall_mem_cons.mpr ⟨hf, ih⟩
  | inclusion _ _ _ _ _ _ ihi ih =>
    intro f hf
    rcases List.mem_append.mp hf with hf | hf
    · exact ihi f hf
    · exact ih f hf

/-! ### What a finished expansion went through -/

theorem expand_eq_self {name : Text} {chain : List Text} {fields : List Field}
    (h : ∀ f ∈ fields, f.isInclusion = false) : (a.expand name chain fields).outcome = .ok fields := by
  induction fields with
  | nil =>
    rw [expand]
    rfl
  | cons f fields ih =>
    obtain ⟨hf, hrest⟩ := List.forall_mem_cons.mp h
    cases f with
    | inclusion position path => cases hf
    | data position items | code position items =>
      rw [expand, Logged.outcome_bind_of_ok (ih hrest)]
      · rfl
      · simp

theorem expand_inclusion {name relative content : Text} {chain : List Text} {position : Position}
    {path : Lexeme} {tree : SourceTree} {p : Program} {rest inner outer : List Field}
    (hu : Quoted.unquote? path.text = some relative) (hc : target name relative ∉ chain)
    (ht : a.tree = some tree) (hr : tree.read (target name relative) = .ok content)
    (hp : a.Parses (target name relative) content p)
    (hi : (a.expand (target name relative) (chain ++ [target name relative]) p.fields).outcome =
      .ok inner)
    (ho : (a.expand name chain rest).outcome = .ok outer) :
    (a.expand name chain (.inclusion position path :: rest)).outcome = .ok (inner ++ outer) := by
  rw [expand]
  split
  next hu' => cases hu.symm.trans hu'
  next _ hu' =>
    cases hu.symm.trans hu'
    rw [dif_neg hc]
    split
    next ht' => cases ht.symm.trans ht'
    next _ ht' =>
      cases ht.symm.trans ht'
      split
      next hr' => cases hr.symm.trans hr'
      next _ hr' =>
        cases hr.symm.trans hr'
        simp only [Logged.outcome_bind_eq_ok]
        exact ⟨(), rfl, p, source_eq_ok.mpr hp, inner, hi, outer, ho, rfl⟩

theorem spliced_of_expand {name : Text} {chain : List Text} {fields out : List Field}
    (h : (a.expand name chain fields).outcome = .ok out) : a.Spliced name fields out := by
  fun_induction Assembler.expand a name chain fields generalizing out with
  | case1 => cases h; exact .nil _
  | case2 => cases h
  | case3 => cases h
  | case4 => cases h
  | case5 => cases h
  | case6 name chain position path rest relative hu hc tree ht content hr _ ihi ih =>
    simp only [Logged.outcome_bind_eq_ok] at h
    obtain ⟨-, -, p, hp, inner, hinner, outer, houter, hout⟩ := h
    cases hout
    exact .inclusion hu ht hr (source_eq_ok.mp hp) (ihi p hinner) (ih houter)
  | case7 name chain f rest hf ih =>
    obtain ⟨outer, houter, hout⟩ := Logged.outcome_bind_eq_ok.mp h
    cases hout
    refine .field ?_ (ih houter)
    cases f with
    | inclusion position path => exact absurd rfl (hf position path)
    | data position items | code position items => rfl

/-- Whatever a finished expansion came to is readable, was not open before and is on no cycle. -/
theorem readable_of_expand {name : Text} {chain : List Text} {fields out : List Field}
    (hc : Path.clean file ∈ chain) (h : (a.expand name chain fields).outcome = .ok out)
    {next node : Text} (hn : Names name fields next)
    (hr : ReflTransGen (a.Includes file text) next node) :
    a.Readable file text node ∧ node ∉ chain ∧ ¬ TransGen (a.Includes file text) node node := by
  fun_induction Assembler.expand a name chain fields generalizing out next node with
  | case1 => obtain ⟨_, _, _, hm, -⟩ := hn; cases hm
  | case2 => cases h
  | case3 => cases h
  | case4 => cases h
  | case5 => cases h
  | case6 name chain position path rest relative hu hnew tree ht content hread _ ihi ih =>
    simp only [Logged.outcome_bind_eq_ok] at h
    obtain ⟨-, -, p, hp, inner, hinner, outer, houter, -⟩ := h
    have hp := source_eq_ok.mp hp
    have hs : a.Stands file text (target name relative) (target name relative) content :=
      .other (fun heq => hnew (heq ▸ hc)) ht hread
    -- everything beyond the included file
    have hbeyond {m k : Text} (hm : a.Includes file text (target name relative) m)
        (hk : ReflTransGen (a.Includes file text) m k) :
        a.Readable file text k ∧ k ∉ chain ++ [target name relative] ∧
          ¬ TransGen (a.Includes file text) k k :=
      ihi p (List.mem_append_left _ hc) hinner ((includes_iff_names hs hp).mp hm) hk
    rcases names_cons hn with ⟨_, path', relative', hf, hu', rfl⟩ | hn
    · cases hf
      cases hu.symm.trans hu'
      rcases hr.cases_head with rfl | ⟨m, hm, hk⟩
      · refine ⟨⟨_, _, p, hs, hp⟩, hnew, fun hcycle => ?_⟩
        obtain ⟨m, hm, hback⟩ := TransGen.head'_iff.mp hcycle
        exact (hbeyond hm hback).2.1 (by simp)
      · obtain ⟨hread, hopen, hcycle⟩ := hbeyond hm hk
        exact ⟨hread, fun hk => hopen (List.mem_append_left _ hk), hcycle⟩
    · exact ih hc houter hn hr
  | case7 name chain f rest hf ih =>
    obtain ⟨outer, houter, -⟩ := Logged.outcome_bind_eq_ok.mp h
    rcases names_cons hn with ⟨position, path, _, rfl, -⟩ | hn
    · exact absurd rfl (hf position path)
    · exact ih hc houter hn hr

/-! ### Where an expansion stops -/

/-- The walk has come by way of `chain` to the file `name` at `node`, of which `fields` are left. -/
structure Visit (a : Assembler) (file text node name : Text) (chain : List Text)
    (fields : List Field) : Prop where
  head : chain.head? = some (Path.clean file)
  last : chain.getLast? = some node
  walk : chain.IsChain (a.Includes file text)
  nodup : chain.Nodup
  source : ∃ content p, a.Stands file text node name content ∧ a.Parses name content p ∧
    ∀ f ∈ fields, f ∈ p.fields

namespace Visit
variable {node name next : Text} {chain : List Text} {fields : List Field} {f : Field}

theorem first {p : Program} (hp : a.Parses file text p) :
    a.Visit file text (Path.clean file) file [Path.clean file] p.fields :=
  ⟨rfl, rfl, .singleton _, List.pairwise_singleton _ _, text, p, .first, hp, fun _ hf => hf⟩

theorem tail (h : a.Visit file text node name chain (f :: fields)) :
    a.Visit file text node name chain fields := by
  obtain ⟨content, p, hs, hp, hf⟩ := h.source
  exact ⟨h.head, h.last, h.walk, h.nodup, content, p, hs, hp, fun f hm => hf f (.tail _ hm)⟩

theorem mem_first (h : a.Visit file text node name chain fields) : Path.clean file ∈ chain :=
  List.mem_of_head? h.head

theorem reaches (h : a.Visit file text node name chain fields) : a.Reaches file text node :=
  reaches_of_isChain h.head h.walk node (List.mem_of_getLast? h.last)

theorem walk_next (h : a.Visit file text node name chain fields) (hn : Names name fields next) :
    (chain ++ [next]).IsChain (a.Includes file text) := by
  obtain ⟨content, p, hs, hp, hf⟩ := h.source
  obtain ⟨position, path, relative, hm, hu, rfl⟩ := hn
  refine h.walk.append (.singleton _) fun x hx y hy => ?_
  cases h.last.symm.trans hx
  cases hy
  exact (includes_iff_names hs hp).mpr ⟨position, path, relative, hf _ hm, hu, rfl⟩

theorem reaches_next (h : a.Visit file text node name chain fields) (hn : Names name fields next) :
    a.Reaches file text next := by
  refine h.reaches.tail ?_
  exact (List.isChain_append.mp (h.walk_next hn)).2.2 node h.last next rfl

/-- A file that has not been entered yet stands where it is read. -/
theorem stands_next {tree : SourceTree} {content : Text} (h : a.Visit file text node name chain fields)
    (hnew : next ∉ chain) (ht : a.tree = some tree) (hr : tree.read next = .ok content) :
    a.Stands file text next next content :=
  .other (fun heq => hnew (heq ▸ h.mem_first)) ht hr

theorem enter {content : Text} {p : Program} (h : a.Visit file text node name chain fields)
    (hn : Names name fields next) (hnew : next ∉ chain)
    (hs : a.Stands file text next next content) (hp : a.Parses next content p) :
    a.Visit file text next next (chain ++ [next]) p.fields where
  head := by simp [h.head]
  last := by simp
  walk := h.walk_next hn
  nodup := List.nodup_append.mpr ⟨h.nodup, List.pairwise_singleton _ _, by
    rintro x hx y hy rfl
    exact hnew (List.mem_singleton.mp hy ▸ hx)⟩
  source := ⟨content, p, hs, hp, fun _ hf => hf⟩

end Visit

/-- What an error of an expansion shows about the graph. -/
inductive Obstacle (a : Assembler) (file text : Text) : AssemblyError → Prop
  | scan {node name content : Text} {e : ScanError} (hr : a.Reaches file text node)
      (hs : a.Stands file text node name content) (he : Scan.tokens name content = .error e) :
      Obstacle a file text (.scan e)
  | grammar {node name content : Text} {ts : List Token} {e : GrammarError}
      (hr : a.Reaches file text node) (hs : a.Stands file text node name content)
      (ht : Scan.tokens name content = .ok ts) (he : Program.ofTokens a.table ts = .error e) :
      Obstacle a file text (.grammar e)
  | missing {node path : Text} {position : Position} {flaw : SourceFlaw}
      (hr : a.Reaches file text node) (hs : ∀ name content, ¬ a.Stands file text node name content) :
      Obstacle a file text (.inclusion position path flaw)
  | cycle {before : List Text} {last : Text} {position : Position}
      (hh : before.head? = some (Path.clean file)) (hn : before.Nodup) (hl : last ∈ before)
      (hw : (before ++ [last]).IsChain (a.Includes file text)) :
      Obstacle a file text (.inclusionCycle position (before ++ [last]))

theorem only_source {node name content : Text} (hr : a.Reaches file text node)
    (hs : a.Stands file text node name content) :
    Failure.Only (a.Obstacle file text) (a.source name content).outcome := by
  rcases a.source_outcome name content with ⟨p, hp, -⟩ | ⟨e, he, hscan⟩ | ⟨ts, e, he, hscan, hp⟩
  · rw [hp]
    exact Failure.only_ok p
  · rw [he]
    exact Failure.only_error (.scan hr hs hscan)
  · rw [he]
    exact Failure.only_error (.grammar hr hs hscan hp)

theorem only_expand {node name : Text} {chain : List Text} {fields : List Field}
    (hv : a.Visit file text node name chain fields) :
    Failure.Only (a.Obstacle file text) (a.expand name chain fields).outcome := by
  fun_induction Assembler.expand a name chain fields generalizing node with
  | case1 => exact Failure.only_ok _
  | case2 name chain position path rest hu =>
    obtain ⟨content, p, -, hp, hf⟩ := hv.source
    obtain ⟨relative, hrel⟩ := hp.exists_unquote (hf _ (.head _))
    rw [hu] at hrel
    cases hrel
  | case3 name chain position path rest relative hu hc =>
    exact Failure.only_error
      (.cycle hv.head hv.nodup hc (hv.walk_next ⟨position, path, relative, .head _, hu, rfl⟩))
  | case4 name chain position path rest relative hu hc ht =>
    refine Failure.only_error
      (.missing (hv.reaches_next ⟨position, path, relative, .head _, hu, rfl⟩) fun _ _ hs => ?_)
    obtain ⟨tree, ht', -⟩ := hs.exists_read fun heq => hc (heq ▸ hv.mem_first)
    rw [ht] at ht'
    cases ht'
  | case5 name chain position path rest relative hu hc tree ht e hr =>
    refine Failure.only_error
      (.missing (hv.reaches_next ⟨position, path, relative, .head _, hu, rfl⟩) fun _ _ hs => ?_)
    obtain ⟨tree', ht', hr'⟩ := hs.exists_read fun heq => hc (heq ▸ hv.mem_first)
    cases ht.symm.trans ht'
    rw [hr] at hr'
    cases hr'
  | case6 name chain position path rest relative hu hc tree ht content hr _ ihi ih =>
    have hn : Names name (.inclusion position path :: rest) (target name relative) := names_head hu
    have hs := hv.stands_next hc ht hr
    refine Failure.Only.logged (Failure.only_ok ()) fun _ _ => ?_
    refine Failure.Only.logged (only_source (hv.reaches_next hn) hs) fun p hp => ?_
    refine Failure.Only.logged (ihi p (hv.enter hn hc hs (source_eq_ok.mp hp))) fun inner _ => ?_
    exact Failure.Only.logged (ih hv.tail) fun outer _ => Failure.only_ok _
  | case7 name chain f rest hf ih =>
    exact Failure.Only.logged (ih hv.tail) fun outer _ => Failure.only_ok _

theorem only_program (a : Assembler) (file text : Text) :
    Failure.Only (a.Obstacle file text) (a.program file text).outcome := by
  refine Failure.Only.logged (only_source ReflTransGen.refl .first) fun p hp => ?_
  exact Failure.Only.logged (only_expand (.first (source_eq_ok.mp hp))) fun out _ => Failure.only_ok _

theorem program_eq_ok {p : Program} : (a.program file text).outcome = .ok p ↔
    ∃ q out, a.Parses file text q ∧ (a.expand file [Path.clean file] q.fields).outcome = .ok out ∧
      p = { q with fields := out } := by
  simp only [program, Logged.outcome_bind_eq_ok, source_eq_ok]
  constructor
  · rintro ⟨q, hq, out, hout, hp⟩
    cases hp
    exact ⟨q, out, hq, hout, rfl⟩
  · rintro ⟨q, out, hq, hout, rfl⟩
    exact ⟨q, hq, out, hout, rfl⟩

/-- A file that includes nothing is assembled from its own program. -/
theorem assemble_of_source {p : Program} {cells : List Cell} {image : Image}
    (hp : (a.source file text).outcome = .ok p) (hn : ∀ f ∈ p.fields, f.isInclusion = false)
    (hc : p.encode a.table a.strict = .ok cells) (hi : Image.link a.strict cells = .ok image) :
    (a.assemble file text).outcome = .ok ⟨file, p, cells, image⟩ := by
  have hprogram : (a.program file text).outcome = .ok p :=
    program_eq_ok.mpr ⟨p, p.fields, source_eq_ok.mp hp, expand_eq_self hn, rfl⟩
  exact assemble_eq_ok.mpr ⟨hprogram, hc, hi, rfl⟩

/-- Nothing stops an expansion if all that can be reached is readable and on no cycle. -/
theorem Obstacle.false {e : AssemblyError} (h : a.Obstacle file text e)
    (hall : ∀ node, a.Reaches file text node →
      a.Readable file text node ∧ ¬ TransGen (a.Includes file text) node node) : False := by
  cases h with
  | scan hr hs he =>
    obtain ⟨_, _, p, hs', ts, hts, -⟩ := (hall _ hr).1
    obtain ⟨rfl, rfl⟩ := hs.unique hs'
    rw [he] at hts
    cases hts
  | grammar hr hs ht he =>
    obtain ⟨_, _, p, hs', ts, hts, hp⟩ := (hall _ hr).1
    obtain ⟨rfl, rfl⟩ := hs.unique hs'
    cases ht.symm.trans hts
    rw [he] at hp
    cases hp
  | missing hr hs =>
    obtain ⟨name, content, p, hs', -⟩ := (hall _ hr).1
    exact hs name content hs'
  | @cycle before last _ hh hn hl hw =>
    exact (hall last (reaches_of_isChain hh hw.left_of_append last hl)).2 (transGen_of_isChain hl hw)

/-- Expansion succeeds exactly if every file that can be reached is there and parses and no cycle can
be reached; the fields are then the splice of the files' fields. Otherwise it ends with an error, and
the chain of a cycle error starts at the first file and follows inclusions until it comes to one of
its files again. -/
theorem expansion_exact (a : Assembler) (file text : Text) :
    ((∃ p, (a.program file text).outcome = .ok p) ↔
      ∀ node, a.Reaches file text node →
        a.Readable file text node ∧ ¬ TransGen (a.Includes file text) node node) ∧
    (∀ p, (a.program file text).outcome = .ok p →
      (∀ f ∈ p.fields, f.isInclusion = false) ∧
      ∃ q, a.Parses file text q ∧ ∀ out, a.Spliced file q.fields out ↔ out = p.fields) ∧
    (∀ failure, (a.program file text).outcome = .error failure → ∃ e, failure = .error e) ∧
    ∀ position chain, (a.program file text).outcome = .error (.error (.inclusionCycle position chain)) →
      ∃ before last, chain = before ++ [last] ∧ before.head? = some (Path.clean file) ∧
        chain.IsChain (a.Includes file text) ∧ before.Nodup ∧ last ∈ before := by
  refine ⟨⟨?_, fun hall => ?_⟩, fun p hp => ?_, fun failure hf => ?_, fun position chain he => ?_⟩
  · rintro ⟨p, hp⟩ node hr
    obtain ⟨q, out, hq, hout, rfl⟩ := program_eq_ok.mp hp
    have hbeyond {m k : Text} (hm : a.Includes file text (Path.clean file) m)
        (hk : ReflTransGen (a.Includes file text) m k) :=
      readable_of_expand (List.mem_singleton_self _) hout
        ((includes_iff_names .first hq).mp hm) hk
    rcases hr.cases_head with rfl | ⟨m, hm, hk⟩
    · refine ⟨⟨file, text, q, .first, hq⟩, fun hcycle => ?_⟩
      obtain ⟨m, hm, hback⟩ := TransGen.head'_iff.mp hcycle
      exact (hbeyond hm hback).2.1 (List.mem_singleton_self _)
    · exact ⟨(hbeyond hm hk).1, (hbeyond hm hk).2.2⟩
  · cases h : (a.program file text).outcome with
    | ok p => exact ⟨p, rfl⟩
    | error failure =>
      obtain ⟨e, -, he⟩ := a.only_program file text failure h
      exact (he.false hall).elim
  · obtain ⟨q, out, hq, hout, rfl⟩ := program_eq_ok.mp hp
    have hs := spliced_of_expand hout
    exact ⟨hs.isInclusion, q, hq, fun out' => ⟨fun h => h.unique hs, fun h => h ▸ hs⟩⟩
  · obtain ⟨e, he, -⟩ := a.only_program file text failure hf
    exact ⟨e, he⟩
  · obtain ⟨e, hfe, ho⟩ := a.only_program file text _ he
    cases hfe
    cases ho with
    | cycle hh hn hl hw => exact ⟨_, _, rfl, hh, hw, hn, hl⟩

end Assembler
end AccAsm
