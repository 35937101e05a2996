/-
ScriptMachine.Proofs.Lexical.Moments — two runs of one program side by side.
-/
import ScriptMachine.Proofs.Lexical.Agreement
import ScriptMachine.Proofs.Lexical.Contract
import ScriptMachine.Proofs.Lexical.Interpreter

namespace ScriptMachine.Lexical

/-! ## §1 Environments -/

variable {envs envs' : Array Env} {env : Option Nat} {es : List Nat} {e : Nat} {name : String}
  {w w' : Word}

inductive Chain (envs : Array Env) : Option Nat → List Nat → Prop
  | nil : Chain envs none []
  | cons {e : Nat} {env : Env} {es : List Nat} : envs[e]? = some env → Chain envs env.parent es →
      Chain envs (some e) (e :: es)

def Parents (envs envs' : Array Env) : Prop :=
  ∀ ⦃e : Nat⦄ ⦃env : Env⦄, envs[e]? = some env →
    ∃ env', envs'[e]? = some env' ∧ env'.parent = env.parent

namespace Chain

variable (h : Chain envs env es)

include h

theorem ancestor (depth : Nat) : ancestor envs env depth = es[depth]? := by
  induction h generalizing depth with
  | nil => cases depth <;> rfl
  | cons he _ ih =>
    cases depth with
    | zero => rfl
    | succ depth =>
      rw [Lexical.ancestor, he]
      exact ih depth

theorem mono (hp : Parents envs envs') : Chain envs' env es := by
  induction h with
  | nil => exact .nil
  | cons he _ ih =>
    obtain ⟨env', he', hpar⟩ := hp he
    exact .cons he' (hpar ▸ ih)

theorem lt : ∀ e ∈ es, e < envs.size := by
  induction h with
  | nil => exact nofun
  | cons he _ ih =>
    intro e hmem
    rcases List.mem_cons.mp hmem with rfl | hmem
    · exact (Array.getElem?_eq_some_iff.mp he).1
    · exact ih e hmem

theorem isNone : env.isNone = es.isEmpty := by
  cases h <;> rfl

end Chain

namespace Parents

theorem refl (envs : Array Env) : Parents envs envs := fun _ _ h => ⟨_, h, rfl⟩

theorem trans {envs'' : Array Env} (h : Parents envs envs') (h' : Parents envs' envs'') :
    Parents envs envs'' := by
  intro e env he
  obtain ⟨env', he', hp⟩ := h he
  obtain ⟨env'', he'', hp'⟩ := h' he'
  exact ⟨env'', he'', hp'.trans hp⟩

theorem write (envs : Array Env) (e : Nat) (name : String) (w : Word) :
    Parents envs (write envs e name w) := by
  intro e' env he
  unfold Lexical.write
  rw [Array.getElem?_modify, he]
  split
  · exact ⟨_, rfl, rfl⟩
  · exact ⟨_, rfl, rfl⟩

theorem push (envs : Array Env) (env : Env) : Parents envs (envs.push env) :=
  fun _ _ h => ⟨_, getElem?_push_of_some h, rfl⟩

end Parents

@[simp] theorem size_write (envs : Array Env) (e : Nat) (name : String) (w : Word) :
    (write envs e name w).size = envs.size := by
  simp [write]

theorem value?_write_same (h : e < envs.size) (name : String) (w : Word) :
    value? (write envs e name w) e name = some w := by
  unfold value? write
  rw [Array.getElem?_modify, if_pos rfl, Array.getElem?_eq_getElem h]
  show (envs[e].vars.insert name w).get? name = some w
  rw [Table.get?_insert, if_pos rfl]

theorem value?_write_ne (w : Word) {e' : Nat} {name' : String} (h : e' = e → name' ≠ name) :
    value? (write envs e name w) e' name' = value? envs e' name' := by
  unfold value? write
  rw [Array.getElem?_modify]
  split
  · next he =>
    have hn := h he.symm
    cases envs[e']? with
    | none => rfl
    | some env =>
      show (env.vars.insert name w).get? name' = env.vars.get? name'
      rw [Table.get?_insert, if_neg hn.symm]
  · rfl

theorem value?_push (h : e < envs.size) (env : Env) (name : String) :
    value? (envs.push env) e name = value? envs e name := by
  unfold value?
  rw [Array.getElem?_push_lt h, Array.getElem?_eq_getElem h]

theorem lt_of_value? (h : value? envs e name = some w) : e < envs.size := by
  obtain ⟨env, he, _⟩ := Option.bind_eq_some_iff.mp h
  exact (Array.getElem?_eq_some_iff.mp he).1

/-! ## §2 Moments -/

structure Moment where
  link : Link
  state : State
  store : Store

structure Moment.Advances (base : Nat) (p p' : Moment) : Prop where
  object : ∀ {i j}, p.link.object i j → p'.link.object i j
  cell : ∀ {e name c}, p.link.cell e name c → p'.link.cell e name c
  cell_old : ∀ {e name c}, e < base → p'.link.cell e name c → p.link.cell e name c
  size : p.state.envs.size ≤ p'.state.envs.size
  parents : Parents p.state.envs p'.state.envs
  value_old : ∀ {e name}, e < base → (∀ c, ¬p.link.cell e name c) →
    value? p'.state.envs e name = value? p.state.envs e name
  later : p.store.Later p'.store

namespace Moment.Advances

variable {base base' : Nat} {p p' p'' : Moment}

theorem refl (base : Nat) (p : Moment) : p.Advances base p :=
  ⟨id, id, fun _ => id, Nat.le_refl _, .refl _, fun _ _ => rfl, .refl _⟩

theorem trans (h : p.Advances base p') (h' : p'.Advances base p'') : p.Advances base p'' where
  object ho := h'.object (h.object ho)
  cell hc := h'.cell (h.cell hc)
  cell_old he hc := h.cell_old he (h'.cell_old he hc)
  size := Nat.le_trans h.size h'.size
  parents := h.parents.trans h'.parents
  value_old he hc := (h'.value_old he fun c hc' => hc c (h.cell_old he hc')).trans
    (h.value_old he hc)
  later := h.later.trans h'.later

theorem weaken (h : p.Advances base p') (hb : base' ≤ base) : p.Advances base' p' where
  object := h.object
  cell := h.cell
  cell_old he := h.cell_old (Nat.lt_of_lt_of_le he hb)
  size := h.size
  parents := h.parents
  value_old he := h.value_old (Nat.lt_of_lt_of_le he hb)
  later := h.later

end Moment.Advances

/-! ## §3 Functions -/

def Binds (G : Final) (sc : Scopes) : Prop :=
  ∀ ⦃scope name key⦄, scope ∈ sc.stack → (name, key) ∈ scope.entries →
    ∃ storage, G.bindings.get? key = some ⟨scope.frame, storage⟩

def Separate (G : Final) : Prop :=
  ∀ ⦃k k' frame storage storage'⦄, G.bindings.get? k = some ⟨frame, storage⟩ →
    G.bindings.get? k' = some ⟨frame, storage'⟩ → storage.index = storage'.index → k = k'

structure Body (G : Final) (inner : FunctionState) (sc : Scopes) (kind : FunctionKind)
    (decl : FunctionDecl) (dn : Nat) : Prop where
  kind_eq : inner.kind = kind
  ne_script : kind ≠ .script
  code : ∃ start rest, G.unit.function? dn =
      some ⟨inner.locals, start ++ rest ++ [.leave (Lower.bareReturn kind)]⟩ ∧
    Translate.opening G inner sc kind decl.params start ∧
      Translate.stmts G inner (sc.openFunction kind.hasReceiver decl.params) decl.body rest
  wellPlaced : decl.WellPlaced
  regular : sc.Regular
  binds : Binds G sc
  separate : Separate G

def Carries (L : Link) (upvalues : List Key) (cells : Array Word) (e : Nat) (name : String)
    (key : Key) : Prop :=
  ∀ ⦃position : Nat⦄, upvalues[position]? = some key →
    ∃ c, cells[position]? = some (.ofIndex c) ∧ L.cell e name c

structure Around (p : Moment) (sc : Scopes) (upvalues : List Key) (cells : Array Word)
    (env : Option Nat) (es : List Nat) : Prop where
  chain : Chain p.state.envs env es
  length : es.length = sc.stack.length
  nodup : es.Nodup
  carries : ∀ {d e : Nat} {scope name key}, sc.stack[d]? = some scope → es[d]? = some e →
    (name, key) ∈ scope.entries → Carries p.link upvalues cells e name key

namespace Moment

def Makes (p : Moment) (made : Made) (c : Closure) : Prop :=
  ∃ G inner sc dn es, c.entry = .compiled G.unit dn ∧
    c.arity = made.decl.params.length ∧ Body G inner sc made.kind made.decl dn ∧
      G.store.Later p.store ∧ Around p sc inner.upvalues c.cells made.env es

/-! ## §4 Linked -/

def Keeps (p : Moment) (e : Nat) (name : String) (c : Nat) : Prop :=
  ∃ w w', value? p.state.envs e name = some w ∧
    p.store.heap.objects[c]? = some (.cell w') ∧ p.link.Same w w' ∧ ∀ i, ¬p.link.object i c

structure Linked (p : Moment) : Prop where
  stores : p.link.Stores p.state.store p.store
  cells : ∀ {e name c}, p.link.cell e name c → p.Keeps e name c
  cell_unique : ∀ {e name c c'}, p.link.cell e name c → p.link.cell e name c' → c = c'
  cell_injective : ∀ {e e' name name' c}, p.link.cell e name c → p.link.cell e' name' c →
    e = e' ∧ name = name'
  functions : ∀ {number c}, p.link.made number c →
    ∃ made, p.state.functions[number.toNat]? = some made ∧ p.Makes made c
  count : p.state.functions.size ≤ p.store.heap.size

def Calm (p : Moment) : Prop := p.store.pending = false ∧ p.store.error = none

variable {base : Nat} {p p' : Moment}

theorem Makes.advance {made : Made} {c : Closure} (h : p.Makes made c) (ha : p.Advances base p') :
    p'.Makes made c := by
  obtain ⟨G, inner, sc, dn, es, hent, harity, hb, hf, hr⟩ := h
  refine ⟨G, inner, sc, dn, es, hent, harity, hb, hf.trans ha.later, ?_⟩
  refine ⟨hr.chain.mono ha.parents, hr.length, hr.nodup, ?_⟩
  intro d e scope name key hd he hmem position hp
  obtain ⟨c, hc, hcell⟩ := hr.carries hd he hmem hp
  exact ⟨c, hc, ha.cell hcell⟩

namespace Linked

theorem cell_lt (h : p.Linked) {c : Nat} (hc : p.link.cell e name c) :
    e < p.state.envs.size ∧ c < 0x100000000 := by
  obtain ⟨w, w', hv, hcell, _, _⟩ := h.cells hc
  have := (Array.getElem?_eq_some_iff.mp hcell).1
  have := h.stores.heap.size_lt
  exact ⟨lt_of_value? hv, Nat.lt_trans ‹_› this⟩

theorem advance (h : p.Linked) (ha : p.Advances base p')
    (hsts : p'.link.Stores p'.state.store p'.store)
    (hc : ∀ {e name c}, p'.link.cell e name c → p'.Keeps e name c)
    (huni : ∀ {e name c c'}, p'.link.cell e name c → p'.link.cell e name c' → c = c')
    (hinj : ∀ {e e' name name' c}, p'.link.cell e name c → p'.link.cell e' name' c →
      e = e' ∧ name = name')
    (hmade : p'.link.made = p.link.made) (hfns : p'.state.functions = p.state.functions)
    (hs : p.store.heap.size ≤ p'.store.heap.size) : p'.Linked where
  stores := hsts
  cells := hc
  cell_unique := huni
  cell_injective := hinj
  functions hm := by
    obtain ⟨made, hget, hmakes⟩ := h.functions (hmade ▸ hm)
    exact ⟨made, hfns ▸ hget, hmakes.advance ha⟩
  count := hfns ▸ Nat.le_trans h.count hs

end Linked

def withStores (p : Moment) (L : Link) (t t' : Store) : Moment :=
  ⟨L, { p.state with store := t }, t'⟩

section Moved

variable {L : Link} {t t' : Store}

theorem advances_moved (hm : p.link.Moves L p.store t') (base : Nat) :
    p.Advances base (p.withStores L t t') where
  object := hm.object
  cell hc := by
    show L.cell _ _ _
    rw [hm.cell]
    exact hc
  cell_old _ hc := by
    rw [← hm.cell]
    exact hc
  size := Nat.le_refl _
  parents := .refl _
  value_old _ _ := rfl
  later := hm.later

theorem Linked.moved (h : p.Linked) (hm : p.link.Moves L p.store t') (hs : L.Stores t t') :
    (p.withStores L t t').Linked := by
  have hcell : ∀ {e name c}, L.cell e name c → p.link.cell e name c := by
    intro e name c hc
    rw [← hm.cell]
    exact hc
  refine h.advance (advances_moved hm 0) hs ?_ ?_ ?_ hm.made rfl hm.size
  · intro e name c hc
    obtain ⟨w, w', hv, hobj, hw, hf⟩ := h.cells (hcell hc)
    obtain ⟨hobj', hf'⟩ := hm.cells hobj hf
    exact ⟨w, w', hv, hobj', hw.mono hm.object, hf'⟩
  · exact fun hc hc' => h.cell_unique (hcell hc) (hcell hc')
  · exact fun hc hc' => h.cell_injective (hcell hc) (hcell hc')

theorem Calm.moved (h : p.Calm) (hm : p.link.Moves L p.store t') :
    (p.withStores L t t').Calm :=
  ⟨(Store.pending_of_signals hm.signals).trans h.1, (Store.error_of_signals hm.signals).trans h.2⟩

end Moved

def openEnv (p : Moment) (parent : Option Nat) : Moment :=
  { p with state := { p.state with envs := p.state.envs.push { parent := parent } } }

theorem advances_openEnv (p : Moment) (parent : Option Nat) :
    p.Advances p.state.envs.size (p.openEnv parent) where
  object := id
  cell := id
  cell_old _ := id
  size := by simp [openEnv]
  parents := .push _ _
  value_old he _ := value?_push he _ _
  later := .refl _

theorem Linked.openEnv (h : p.Linked) (parent : Option Nat) : (p.openEnv parent).Linked := by
  refine h.advance (p.advances_openEnv parent) h.stores ?_ h.cell_unique h.cell_injective rfl rfl
    (Nat.le_refl _)
  intro e name c hc
  obtain ⟨w, w', hv, hk⟩ := h.cells hc
  exact ⟨w, w', (value?_push (h.cell_lt hc).1 _ _).trans hv, hk⟩

def write (p : Moment) (e : Nat) (name : String) (w : Word) : Moment :=
  { p with state := { p.state with envs := Lexical.write p.state.envs e name w } }

theorem advances_write (p : Moment) (name : String) (w : Word) (hb : base ≤ e) :
    p.Advances base (p.write e name w) where
  object := id
  cell := id
  cell_old _ := id
  size := Nat.le_of_eq (size_write _ _ _ _).symm
  parents := .write _ _ _ _
  value_old he _ := value?_write_ne w fun heq => absurd he (by omega)
  later := .refl _

theorem Linked.write (h : p.Linked) (w : Word) (hf : ∀ c, ¬p.link.cell e name c) :
    (p.write e name w).Linked := by
  refine h.advance (p.advances_write name w (Nat.le_refl e)) h.stores ?_ h.cell_unique
    h.cell_injective rfl rfl (Nat.le_refl _)
  intro e' name' c hc
  obtain ⟨v, v', hv, hk⟩ := h.cells hc
  refine ⟨v, v', ?_, hk⟩
  rw [← hv]
  exact value?_write_ne w fun he hn => hf c (he ▸ hn ▸ hc)

def assignCell (p : Moment) (e : Nat) (name : String) (w : Word) (c : Nat) (w' : Word) : Moment :=
  { p.write e name w with
    store := { p.store with heap := p.store.heap.put c (.cell w') } }

theorem advances_assignCell {c : Nat} (h : p.Linked) (hc : p.link.cell e name c) (w w' : Word)
    (base : Nat) : p.Advances base (p.assignCell e name w c w') where
  object := id
  cell := id
  cell_old _ := id
  size := Nat.le_of_eq (size_write _ _ _ _).symm
  parents := .write _ _ _ _
  value_old _ hf := value?_write_ne w fun he hn => hf c (by rw [he, hn]; exact hc)
  later := by
    obtain ⟨v, v', _, hobj, _, _⟩ := h.cells hc
    refine .of_heap rfl (fun _ => rfl) rfl rfl fun {i closure} hi => ?_
    show (p.store.heap.put c _).objects[i]? = _
    rw [p.store.heap.getElem?_put _ hobj, if_neg, hi]
    rintro rfl
    rw [hobj] at hi
    cases hi

theorem Linked.assignCell {c : Nat} (h : p.Linked) (hc : p.link.cell e name c)
    (hw : p.link.Same w w') : (p.assignCell e name w c w').Linked := by
  obtain ⟨v, v', _, hobj, _, hf⟩ := h.cells hc
  have hput := p.store.heap.getElem?_put (.cell w') hobj
  refine h.advance (p.advances_assignCell h hc w w' 0)
    (h.stores.withHeap (.refl _) (h.stores.heap.putCell hobj hf w')) ?_ h.cell_unique
    h.cell_injective rfl rfl (Nat.le_of_eq (Heap.size_put ..).symm)
  intro e' name' c' hc'
  show ∃ u u', _ ∧ (p.store.heap.put c (.cell w')).objects[c']? = _ ∧ _
  rw [hput]
  split
  · next heq =>
    subst heq
    obtain ⟨rfl, rfl⟩ := h.cell_injective hc hc'
    exact ⟨w, w', value?_write_same (h.cell_lt hc).1 _ _, rfl, hw, hf⟩
  · next hne =>
    obtain ⟨u, u', hu, hk⟩ := h.cells hc'
    refine ⟨u, u', (value?_write_ne w fun he hn => hne ?_).trans hu, hk⟩
    subst he hn
    exact h.cell_unique hc hc'

def declareCell (p : Moment) (e : Nat) (name : String) (w w' : Word) : Moment :=
  { p.write e name w with
    link := p.link.addCell e name p.store.heap.size
    store := { p.store with heap := p.store.heap.push (.cell w') } }

theorem advances_declareCell (p : Moment) (name : String) (w w' : Word) (hb : base ≤ e) :
    p.Advances base (p.declareCell e name w w') where
  object := id
  cell := .inl
  cell_old := by
    rintro e' name' c he (hc | ⟨rfl, _⟩)
    · exact hc
    · omega
  size := Nat.le_of_eq (size_write _ _ _ _).symm
  parents := .write _ _ _ _
  value_old he _ := value?_write_ne w fun heq => absurd he (by omega)
  later := .of_heap rfl (fun _ => rfl) rfl rfl fun hi => getElem?_push_of_some hi

theorem Linked.declareCell (h : p.Linked) (he : e < p.state.envs.size)
    (hf : ∀ c, ¬p.link.cell e name c) (hw : p.link.Same w w')
    (hr : p.store.heap.size < p.store.heap.limit) : (p.declareCell e name w w').Linked := by
  have hold : ∀ {e name c}, p.link.cell e name c → c ≠ p.store.heap.size := by
    intro e name c hc
    obtain ⟨_, _, _, hobj, _, _⟩ := h.cells hc
    exact Nat.ne_of_lt (Array.getElem?_eq_some_iff.mp hobj).1
  refine h.advance (p.advances_declareCell name w w' (Nat.le_refl e)) ?_ ?_ ?_ ?_ rfl rfl ?_
  · exact h.stores.withHeap Link.le_addCell
      ((h.stores.heap.pushCell w' hr).mono Link.le_addCell rfl)
  · rintro e' name' c (hc | ⟨rfl, rfl, rfl⟩)
    · obtain ⟨v, v', hv, hobj, hk⟩ := h.cells hc
      refine ⟨v, v', (value?_write_ne w fun he hn => hf c ?_).trans hv,
        getElem?_push_of_some hobj, hk⟩
      exact he ▸ hn ▸ hc
    · refine ⟨w, w', value?_write_same he _ _, Array.getElem?_push_size, hw, fun i hi => ?_⟩
      exact absurd (h.stores.heap.lt hi).2 (Nat.lt_irrefl _)
  · rintro e' name' c c' (hc | ⟨rfl, rfl, rfl⟩) (hc' | ⟨he', hn', rfl⟩)
    · exact h.cell_unique hc hc'
    · exact absurd (he' ▸ hn' ▸ hc) (hf c)
    · exact absurd hc' (hf c')
    · rfl
  · rintro e' e'' name' name'' c (hc | ⟨rfl, rfl, rfl⟩) (hc' | ⟨rfl, rfl, heq⟩)
    · exact h.cell_injective hc hc'
    · exact absurd heq (hold hc)
    · exact absurd rfl (hold hc')
    · exact ⟨rfl, rfl⟩
  · show p.store.heap.size ≤ (p.store.heap.push (.cell w')).size
    rw [Heap.size_push]
    exact Nat.le_succ _

def makeClosure (p : Moment) (made : Made) (c : Closure) : Moment where
  link := (p.link.addMade (.ofNat p.state.functions.size) c).add p.state.store.heap.size
    p.store.heap.size
  state :=
    { p.state with
      store := { p.state.store with
        heap := p.state.store.heap.push
          (.closure ⟨c.name, c.arity, .address (.ofNat p.state.functions.size), #[]⟩) }
      functions := p.state.functions.push made }
  store := { p.store with heap := p.store.heap.push (.closure c) }

section Closures

variable {made : Made} {c : Closure}

theorem advances_makeClosure (base : Nat) : p.Advances base (p.makeClosure made c) where
  object := .inl
  cell := id
  cell_old _ := id
  size := Nat.le_refl _
  parents := .refl _
  value_old _ _ := rfl
  later := .of_heap rfl (fun _ => rfl) rfl rfl fun hi => getElem?_push_of_some hi

theorem Linked.makeClosure (h : p.Linked) (hm : p.Makes made c)
    (hr : p.store.heap.size < p.store.heap.limit) : (p.makeClosure made c).Linked where
  stores := h.stores.withHeap (Link.le_addMade.trans Link.le_add)
    ((h.stores.heap.mono Link.le_addMade rfl).push (.closure rfl rfl (.made rfl (.inr ⟨rfl, rfl⟩)))
      hr)
  cells hc := by
    obtain ⟨w, w', hv, hobj, hw, hf⟩ := h.cells hc
    refine ⟨w, w', hv, getElem?_push_of_some hobj, hw.mono .inl, ?_⟩
    rintro i (hi | ⟨_, rfl⟩)
    · exact hf i hi
    · exact absurd (Array.getElem?_eq_some_iff.mp hobj).1 (Nat.lt_irrefl _)
  cell_unique := h.cell_unique
  cell_injective := h.cell_injective
  functions := by
    have hadv : p.Advances 0 (p.makeClosure made c) := advances_makeClosure 0
    rintro number x (hx | ⟨rfl, rfl⟩)
    · obtain ⟨made', hmade, hm'⟩ := h.functions hx
      exact ⟨made', getElem?_push_of_some hmade, hm'.advance hadv⟩
    · -- there are fewer functions than objects, so the number is the place
      have hnum : (UInt64.ofNat p.state.functions.size).toNat = p.state.functions.size := by
        have := h.count
        have := h.stores.heap.size_lt
        exact UInt64.toNat_ofNat_of_lt' (by unfold UInt64.size; omega)
      refine ⟨made, ?_, hm.advance hadv⟩
      rw [hnum]
      exact Array.getElem?_push_size
  count := by
    show (p.state.functions.push made).size ≤ (p.store.heap.push (.closure c)).size
    rw [Array.size_push, Heap.size_push]
    exact Nat.succ_le_succ h.count

end Closures

end Moment

end ScriptMachine.Lexical
