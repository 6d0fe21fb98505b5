import Plexdb.SchemaPersisted

/-! One record at the end of the log of the user types, and the state that matches the longer log:
what `load` does with the record, and what a statement does that appends it. -/

namespace Plexdb.Cql.Schema

/-! ### Logs -/

namespace UdtLog

variable {log log' : UdtLog}

@[simp] theorem decls_append : UdtLog.decls (log ++ log') = log.decls ++ log'.decls := List.filterMap_append

@[simp] theorem liveFields_append (i : Nat) :
    UdtLog.liveFields (log ++ log') i = log.liveFields i ++ log'.liveFields i := List.filterMap_append

theorem mem_decls {d : UdtDecl} :
    d ∈ log.decls ↔ (UdtRecord.decl d.tombstone d.keyspace d.name, d.offset) ∈ log := by
  rw [decls, List.mem_filterMap]
  constructor
  · rintro ⟨⟨r, offset⟩, he, hd⟩
    cases r with
    | decl tombstone keyspace name => cases hd; exact he
    | field tombstone parent name typeBytes => cases hd
  · exact fun he => ⟨_, he, rfl⟩

theorem offset_of_mem_liveFields {i offset : Nat} {name : String8} {typeBytes : Bytes}
    (h : (offset, name, typeBytes) ∈ log.liveFields i) : (UdtRecord.field false i name typeBytes, offset) ∈ log := by
  obtain ⟨⟨r, o⟩, he, hf⟩ := List.mem_filterMap.mp h
  cases r with
  | decl tombstone keyspace name => cases hf
  | field tombstone parent name typeBytes =>
      cases tombstone with
      | true => cases hf
      | false =>
          rw [liveFieldOf] at hf
          split_ifs at hf with hparent
          cases hf
          rw [← hparent]
          exact he

theorem Declares.append {keyspace name : String8} {offset : Nat} (h : log.Declares keyspace name offset)
    (log' : UdtLog) : UdtLog.Declares (log ++ log') keyspace name offset := by
  obtain ⟨d, hd, hdecl⟩ := h
  exact ⟨d, by rw [decls_append]; exact List.mem_append_left _ hd, hdecl⟩

theorem Readable.append {parent offset : Nat} {typeBytes : Bytes} (h : log.Readable parent typeBytes offset)
    (log' : UdtLog) : UdtLog.Readable (log ++ log') parent typeBytes offset := by
  obtain ⟨d, hd, hlt, t, hsized, hbytes, hrefs⟩ := h
  refine ⟨d, ?_, hlt, t, hsized, hbytes, fun name hname => (hrefs name hname).append log'⟩
  rw [decls_append, List.getElem?_append_left (List.getElem?_eq_some_iff.mp hd).1, hd]

theorem UniqueDecls.of_append (h : UdtLog.UniqueDecls (log ++ log')) : log.UniqueDecls := by
  have hmem : ∀ d ∈ log.decls, d ∈ UdtLog.decls (log ++ log') := fun d hd => by
    rw [decls_append]
    exact List.mem_append_left _ hd
  exact fun d hd d' hd' => h d (hmem d hd) d' (hmem d' hd')

/-- The offsets grow along the log. -/
def Sorted (log : UdtLog) : Prop := log.Pairwise fun e e' => e.2 < e'.2

theorem sorted_zipIdx (records : List UdtRecord) : UdtLog.Sorted records.zipIdx := by
  rw [Sorted, ← List.pairwise_map (f := Prod.snd) (R := (· < ·)), List.zipIdx_map_snd]
  exact List.pairwise_lt_range'

theorem Sorted.of_append (h : UdtLog.Sorted (log ++ log')) : log.Sorted := (List.pairwise_append.mp h).1

/-- A declaration below every offset of the rest stands before the rest. -/
theorem getElem?_decls_of_append {i offset : Nat} {d : UdtDecl} (hrest : ∀ e ∈ log', offset ≤ e.2)
    (hd : (UdtLog.decls (log ++ log'))[i]? = some d) (hlt : d.offset < offset) : log.decls[i]? = some d := by
  rw [decls_append, List.getElem?_append] at hd
  split_ifs at hd with hi
  · exact hd
  · have := hrest _ (mem_decls.mp (List.mem_of_getElem? hd))
    dsimp only at this
    omega

theorem mem_decls_of_append {offset : Nat} {d : UdtDecl} (hrest : ∀ e ∈ log', offset ≤ e.2)
    (hd : d ∈ UdtLog.decls (log ++ log')) (hlt : d.offset < offset) : d ∈ log.decls := by
  obtain ⟨i, hi⟩ := List.mem_iff_getElem?.mp hd
  exact List.mem_of_getElem? (getElem?_decls_of_append hrest hi hlt)

end UdtLog

/-! ### States -/

/-- The user types of two schemas are the same and lie at the same places. -/
structure SameTypeState (s s' : Schema) : Prop where
  keyspaces : s'.keyspaces.map (fun k => (k.name, k.udtsByName)) = s.keyspaces.map fun k => (k.name, k.udtsByName)
  readKeyspace : ∀ name, s'.readKeyspace name = s.readKeyspace name
  udts : s'.udts = s.udts
  storage : s'.udtStorage = s.udtStorage

theorem SameTypeState.readUdt_eq {s s' : Schema} (h : SameTypeState s s') (ks : Nat) (name : String8) :
    s'.readUdt ks name = s.readUdt ks name := by
  have hview (s : Schema) : s.readUdt ks name =
      ((s.keyspaces.map fun k => (k.name, k.udtsByName))[ks]?).bind fun k => k.2.find name := by
    rw [List.getElem?_map, readUdt]
    cases s.keyspaces[ks]? <;> rfl
  rw [hview s', hview s, h.keyspaces]

/-- Every user type that is found in a keyspace stays there, under its name. -/
structure KeepsTypes (s s' : Schema) : Prop where
  readUdt : ∀ ks name p, s.readUdt ks name = some p → s'.readUdt ks name = some p
  udtName : ∀ ks name p, s.readUdt ks name = some p → Schema.udtName s'.udts p = Schema.udtName s.udts p

theorem SameTypeState.keeps {s s' : Schema} (h : SameTypeState s s') : KeepsTypes s s' where
  readUdt ks name p hp := (h.readUdt_eq ks name).trans hp
  udtName _ _ p _ := by rw [h.udts]

theorem KeepsTypes.resolvesIn {s s' : Schema} (h : KeepsTypes s s') {ks : Nat} {t : Ty} (ht : s.ResolvesIn ks t) :
    s'.ResolvesIn ks t := by
  refine ⟨ht.1, fun p hp => ?_⟩
  have hread := ht.2 p hp
  rw [h.udtName ks _ p hread]
  exact h.readUdt ks _ p hread

theorem KeepsTypes.writeType_eq {s s' : Schema} (h : KeepsTypes s s') {ks : Nat} {t : Ty}
    (ht : s.ResolvesIn ks t) : writeType (Schema.udtName s'.udts) t = writeType (Schema.udtName s.udts) t :=
  writeType_congr fun p hp => h.udtName ks _ p (ht.2 p hp)

namespace TypesStored

variable {log : UdtLog} {s s' : Schema}

theorem congr (h : TypesStored log s) (hs : SameTypeState s s') : TypesStored log s' where
  decls := by rw [hs.storage, h.decls]
  keyspaces u hu := by
    rw [hs.readKeyspace]
    exact h.keyspaces u (hs.storage ▸ hu)
  fields i u hu := by
    rw [hs.udts]
    exact h.fields i u (hs.storage ▸ hu)
  lengths u hu := h.lengths u (hs.storage ▸ hu)
  types u hu hlive ks hks t ht := by
    rw [hs.readKeyspace] at hks
    exact hs.keeps.resolvesIn (h.types u (hs.storage ▸ hu) hlive ks hks t ht)
  bound ks k' name p hk' hp := by
    have hview : (s'.keyspaces.map fun k => (k.name, k.udtsByName))[ks]? = some (k'.name, k'.udtsByName) := by
      rw [List.getElem?_map, hk', Option.map_some]
    rw [hs.keyspaces, List.getElem?_map] at hview
    obtain ⟨k, hk, heq⟩ := Option.map_eq_some_iff.mp hview
    obtain ⟨hname, hudts⟩ := Prod.mk.inj heq
    rw [hs.readKeyspace, hs.storage, hs.udts, ← hname]
    exact h.bound ks k name p hk (hudts ▸ hp)
  found u hu hlive := by
    obtain ⟨ks, p, hks, hp, hudt⟩ := h.found u (hs.storage ▸ hu) hlive
    exact ⟨ks, p, (hs.readKeyspace _).trans hks, (hs.readUdt_eq ks _).trans hp, hs.udts ▸ hudt⟩

theorem lt_of_readUdt (h : TypesStored log s) {ks p : Nat} {name : String8} (hp : s.readUdt ks name = some p) :
    p < s.udts.length := by
  obtain ⟨k, hk, hfind⟩ := Schema.readUdt_eq_some.mp hp
  obtain ⟨-, u, -, -, -, -, hudt⟩ := h.bound ks k name p hk hfind
  exact (List.getElem?_eq_some_iff.mp hudt).1

theorem length_decls (h : TypesStored log s) : log.decls.length = s.udtStorage.length := by
  rw [← h.decls, List.length_map]

/-- The type that a name in a keyspace stands for. -/
theorem bound_of_readUdt (h : TypesStored log s) {ks p : Nat} {keyspace name : String8}
    (hks : s.readKeyspace keyspace = some ks) (hname : s.keyspaceName ks = some keyspace)
    (hp : s.readUdt ks name = some p) :
    ∃ u ∈ s.udtStorage, u.tombstone = false ∧ u.keyspace = keyspace ∧ u.name = name ∧ s.udts[p]? = some u.udt := by
  obtain ⟨k, hk, hfind⟩ := Schema.readUdt_eq_some.mp hp
  rw [keyspaceName, hk] at hname
  obtain rfl := Option.some.inj hname
  exact (h.bound ks k name p hk hfind).2

end TypesStored

/-! ### One more declaration -/

/-- The schema with one more user type, which has no fields. -/
def declare (s : Schema) (ks offset : Nat) (keyspace name : String8) : Schema :=
  { s with
    udtStorage := s.udtStorage ++ [⟨offset, false, keyspace, name, [], [], []⟩]
    udts := s.udts ++ [⟨keyspace, name, [], []⟩]
    keyspaces := s.keyspaces.modify ks fun k =>
      { k with udtsByName := k.udtsByName.insert name s.udts.length } }

theorem readUdt_insert {keyspaces : List Keyspace} {ks : Nat} (hks : ks < keyspaces.length) (name : String8)
    (p ks' : Nat) (name' : String8) :
    ((keyspaces.modify ks fun k => { k with udtsByName := k.udtsByName.insert name p })[ks']?.bind
        fun k => k.udtsByName.find name') =
      if ks' = ks ∧ name' = name then some p else keyspaces[ks']?.bind fun k => k.udtsByName.find name' := by
  rw [List.getElem?_modify]
  by_cases h : ks = ks'
  · subst h
    rw [List.getElem?_eq_getElem hks]
    simp [NameMap.find_insert]
  · simp [h, Ne.symm h]

theorem readUdt_declare {s : Schema} {ks : Nat} (hks : ks < s.keyspaces.length) (offset : Nat)
    (keyspace name : String8) (ks' : Nat) (name' : String8) :
    (s.declare ks offset keyspace name).readUdt ks' name' =
      if ks' = ks ∧ name' = name then some s.udts.length else s.readUdt ks' name' :=
  readUdt_insert hks name s.udts.length ks' name'

theorem keepsTypes_declare {log : UdtLog} {s : Schema} (h : TypesStored log s) {ks : Nat}
    (hks : ks < s.keyspaces.length) {name : String8} (hfree : s.readUdt ks name = none) (offset : Nat)
    (keyspace : String8) : KeepsTypes s (s.declare ks offset keyspace name) where
  readUdt ks' name' p hp := by
    rw [readUdt_declare hks, if_neg, hp]
    rintro ⟨rfl, rfl⟩
    rw [hfree] at hp
    cases hp
  udtName ks' name' p hp := by
    rw [udtName, udtName, declare, List.getElem?_append_left (h.lt_of_readUdt hp)]

theorem TypesStored.declare {log : UdtLog} {s : Schema} (h : TypesStored log s) {ks : Nat} {keyspace name : String8}
    (hks : s.readKeyspace keyspace = some ks) (hname : s.keyspaceName ks = some keyspace)
    (hfree : s.readUdt ks name = none) (hfields : log.liveFields s.udtStorage.length = []) (offset : Nat) :
    TypesStored (log ++ [(.decl false keyspace name, offset)]) (s.declare ks offset keyspace name) := by
  obtain ⟨k, hk, hkname⟩ := Option.map_eq_some_iff.mp hname
  have hlt := (List.getElem?_eq_some_iff.mp hk).1
  have hkeeps := keepsTypes_declare h hlt hfree offset keyspace
  have hread : ∀ keyspace', (s.declare ks offset keyspace name).readKeyspace keyspace' = s.readKeyspace keyspace' :=
    fun _ => rfl
  have hnew : (s.declare ks offset keyspace name).udts[s.udts.length]? = some ⟨keyspace, name, [], []⟩ :=
    List.getElem?_concat_length
  refine ⟨?_, ?_, ?_, ?_, ?_, ?_, ?_⟩
  · rw [UdtLog.decls_append, ← h.decls]
    exact List.map_append
  · exact forall_mem_append_singleton h.keyspaces (by rw [hread, hks]; rfl)
  · intro i u hu hlive
    rw [UdtLog.liveFields_append, show UdtLog.liveFields [(UdtRecord.decl false keyspace name, offset)] i = [] from rfl,
      List.append_nil]
    rw [Schema.declare, List.getElem?_append] at hu
    split_ifs at hu with hi
    · rw [← h.fields i u hu hlive, UdtStorage.fields, UdtStorage.fields, List.map_congr_left fun t ht => ?_]
      obtain ⟨ks', hks'⟩ := Option.isSome_iff_exists.mp (h.keyspaces u (List.mem_of_getElem? hu))
      exact hkeeps.writeType_eq (h.types u (List.mem_of_getElem? hu) hlive ks' hks' t ht)
    · rw [List.getElem?_singleton] at hu
      split_ifs at hu with hzero
      obtain rfl := Option.some.inj hu
      rw [show i = s.udtStorage.length by omega, hfields]
      rfl
  · exact forall_mem_append_singleton h.lengths ⟨rfl, rfl⟩
  · refine forall_mem_append_singleton (fun u hu hlive ks' hks' t ht => ?_) fun _ _ _ => List.forall_mem_nil _
    exact hkeeps.resolvesIn (h.types u hu hlive ks' hks' t ht)
  · intro ks' k' name' p hk' hp
    have hold : ∀ k₀, s.keyspaces[ks']? = some k₀ → k₀.udtsByName.find name' = some p →
        s.readKeyspace k₀.name = some ks' ∧ ∃ u ∈ (s.declare ks offset keyspace name).udtStorage,
          u.tombstone = false ∧ u.keyspace = k₀.name ∧ u.name = name' ∧
            (s.declare ks offset keyspace name).udts[p]? = some u.udt := by
      intro k₀ hk₀ hp
      obtain ⟨hread, u, hu, hlive, hukeyspace, huname, hudt⟩ := h.bound ks' k₀ name' p hk₀ hp
      refine ⟨hread, u, List.mem_append_left _ hu, hlive, hukeyspace, huname, ?_⟩
      rw [Schema.declare, List.getElem?_append_left (List.getElem?_eq_some_iff.mp hudt).1, hudt]
    rw [Schema.declare, List.getElem?_modify] at hk'
    obtain ⟨k₀, hk₀, rfl⟩ := Option.map_eq_some_iff.mp hk'
    by_cases hsame : ks = ks'
    · subst hsame
      rw [hk] at hk₀
      obtain rfl := Option.some.inj hk₀
      rw [if_pos rfl] at hp ⊢
      rw [NameMap.find_insert] at hp
      split_ifs at hp with hn
      · obtain rfl := Option.some.inj hp
        exact ⟨hkname ▸ hks, _, List.mem_append_right _ List.mem_cons_self, rfl, hkname.symm, hn.symm, hnew⟩
      · exact hold k hk hp
    · rw [if_neg hsame] at hp ⊢
      exact hold k₀ hk₀ hp
  · refine forall_mem_append_singleton (fun u hu hlive => ?_) fun _ => ?_
    · obtain ⟨ks', p, hks', hp, hudt⟩ := h.found u hu hlive
      refine ⟨ks', p, hks', hkeeps.readUdt ks' _ p hp, ?_⟩
      rw [Schema.declare, List.getElem?_append_left (h.lt_of_readUdt hp), hudt]
    · exact ⟨ks, s.udts.length, hks, by rw [readUdt_declare hlt, if_pos ⟨rfl, rfl⟩], hnew⟩

theorem TypesStored.declareDead {log : UdtLog} {s : Schema} (h : TypesStored log s) {keyspace : String8}
    (hlive : (s.readKeyspace keyspace).isSome) (name : String8) (offset : Nat) :
    TypesStored (log ++ [(.decl true keyspace name, offset)])
      { s with udtStorage := s.udtStorage ++ [⟨offset, true, keyspace, name, [], [], []⟩] } where
  decls := by
    rw [UdtLog.decls_append, ← h.decls]
    exact List.map_append
  keyspaces := forall_mem_append_singleton h.keyspaces hlive
  fields i u hu hulive := by
    rw [UdtLog.liveFields_append, show UdtLog.liveFields [(UdtRecord.decl true keyspace name, offset)] i = [] from rfl,
      List.append_nil]
    refine h.fields i u ?_ hulive
    rw [List.getElem?_append] at hu
    split_ifs at hu with hi
    · exact hu
    · rw [List.getElem?_singleton] at hu
      split_ifs at hu
      rw [← Option.some.inj hu] at hulive
      cases hulive
  lengths := forall_mem_append_singleton h.lengths ⟨rfl, rfl⟩
  types := forall_mem_append_singleton h.types fun hdead => by cases hdead
  bound ks k name' p hk hp := by
    obtain ⟨hread, u, hu, hbound⟩ := h.bound ks k name' p hk hp
    exact ⟨hread, u, List.mem_append_left _ hu, hbound⟩
  found := forall_mem_append_singleton h.found fun hdead => by cases hdead

/-! ### Fields of a type -/

/-- The schema with another storage at `i` for the type `p`. -/
def replaceStorage (s : Schema) (i p : Nat) (u : UdtStorage) : Schema :=
  { s with
    udtStorage := s.udtStorage.set i u
    udts := s.udts.modify p fun du => { du with fieldNames := u.fieldNames, fieldTypes := u.fieldTypes } }

/-- The schema with one more field of the type `p`, which is stored at `i` as `u`. -/
def pushField (s : Schema) (i p : Nat) (u : UdtStorage) (offset : Nat) (name : String8) (type : Ty) : Schema :=
  s.replaceStorage i p (u.addFields [offset] [(name, type)])

theorem udtName_modify (udts : List Udt) (p q : Nat) {f : Udt → Udt} (hf : ∀ u, (f u).name = u.name) :
    udtName (udts.modify p f) q = udtName udts q := by
  rw [udtName, udtName, List.getElem?_modify]
  cases udts[q]? with
  | none => rfl
  | some u => by_cases hpq : p = q <;> simp [hpq, hf]

theorem keepsTypes_replaceStorage (s : Schema) (i p : Nat) (u : UdtStorage) :
    KeepsTypes s (s.replaceStorage i p u) where
  readUdt _ _ _ hp := hp
  udtName _ _ q _ := udtName_modify s.udts p q fun _ => rfl

/-- The live storage of a type stands at one place. -/
def UniqueStorage (s : Schema) : Prop :=
  ∀ (i j : Nat) (u v : UdtStorage), s.udtStorage[i]? = some u → s.udtStorage[j]? = some v → u.tombstone = false → v.tombstone = false →
    u.keyspace = v.keyspace → u.name = v.name → i = j

theorem TypesStored.uniqueStorage {log : UdtLog} {s : Schema} (h : TypesStored log s)
    (hunique : log.UniqueDecls) (hsorted : log.Sorted) : UniqueStorage s := by
  have hdecls : log.decls.Pairwise fun d d' => d.offset < d'.offset := by
    refine List.Pairwise.filterMap declOf (fun e e' hlt d hd d' hd' => ?_) hsorted
    obtain ⟨r, o⟩ := e
    obtain ⟨r', o'⟩ := e'
    cases r with
    | field => cases hd
    | decl =>
        cases r' with
        | field => cases hd'
        | decl =>
            cases hd
            cases hd'
            exact hlt
  have hdecl : ∀ (i : Nat) (u : UdtStorage), s.udtStorage[i]? = some u → log.decls[i]? = some u.decl := by
    intro i u hu
    rw [← h.decls, List.getElem?_map, hu, Option.map_some]
  intro i j u v hu hv hulive hvlive hks hname
  have hoffset := hunique u.decl (List.mem_of_getElem? (hdecl i u hu)) v.decl
    (List.mem_of_getElem? (hdecl j v hv)) hulive hvlive hks hname
  obtain ⟨hi, hui⟩ := List.getElem?_eq_some_iff.mp (hdecl i u hu)
  obtain ⟨hj, hvj⟩ := List.getElem?_eq_some_iff.mp (hdecl j v hv)
  rcases Nat.lt_trichotomy i j with hlt | rfl | hlt
  · have := List.pairwise_iff_getElem.mp hdecls i j hi hj hlt
    rw [hui, hvj] at this
    omega
  · rfl
  · have := List.pairwise_iff_getElem.mp hdecls j i hj hi hlt
    rw [hui, hvj] at this
    omega

theorem UdtStorage.fields_addFields {u : UdtStorage} {udts : List Udt} {offset : Nat} {name : String8} {type : Ty}
    (h : u.fieldRecordOffsets.length = u.fieldTypes.length ∧ u.fieldNames.length = u.fieldTypes.length) :
    (u.addFields [offset] [(name, type)]).fields udts =
      u.fields udts ++ [(offset, name, writeType (udtName udts) type)] := by
  simp only [UdtStorage.fields, UdtStorage.addFields, List.map_cons, List.map_nil, List.map_append]
  rw [List.zip_append (by simp [h.2]), List.zip_append (by simp [h])]
  rfl

/-- A live type is given other fields, in the log and in memory. -/
theorem TypesStored.replaceStorage {log log' : UdtLog} {s : Schema} (h : TypesStored log s)
    (hunique : UniqueStorage s) {i p ks : Nat} {u u' : UdtStorage} (hu : s.udtStorage[i]? = some u)
    (hlive : u.tombstone = false) (hks : s.readKeyspace u.keyspace = some ks) (hp : s.readUdt ks u.name = some p)
    (hdecl : u'.decl = u.decl) (hdecls : log'.decls = log.decls)
    (hfields : log'.liveFields i = u'.fields s.udts) (hothers : ∀ j, j ≠ i → log'.liveFields j = log.liveFields j)
    (hlengths : u'.fieldRecordOffsets.length = u'.fieldTypes.length ∧ u'.fieldNames.length = u'.fieldTypes.length)
    (htypes : ∀ t ∈ u'.fieldTypes, s.ResolvesIn ks t) : TypesStored log' (s.replaceStorage i p u') := by
  have hmem := List.mem_of_getElem? hu
  have hkeeps := keepsTypes_replaceStorage s i p u'
  obtain ⟨htombstone', hkeyspace', hname'⟩ := UdtStorage.decl_inj hdecl
  -- the pointers of the other live types lead elsewhere
  have hudt : s.udts[p]? = some u.udt := by
    obtain ⟨ks', p', hks', hp', hudt⟩ := h.found u hmem hlive
    obtain rfl := Option.some.inj (hks.symm.trans hks')
    obtain rfl := Option.some.inj (hp.symm.trans hp')
    exact hudt
  have hother : ∀ (j : Nat) (v : UdtStorage) (q : Nat), s.udtStorage[j]? = some v → v.tombstone = false →
      s.udts[q]? = some v.udt → j ≠ i → q ≠ p := by
    rintro j v q hv hvlive hvudt hj rfl
    rw [hudt] at hvudt
    have heq := Option.some.inj hvudt
    exact hj (hunique i j u v hu hv hlive hvlive (congrArg Udt.keyspace heq) (congrArg Udt.name heq)).symm
  have hnew : (s.replaceStorage i p u').udts[p]? = some u'.udt := by
    rw [Schema.replaceStorage, List.getElem?_modify_eq, hudt]
    simp [UdtStorage.udt, hkeyspace', hname']
  have hold : ∀ q, q ≠ p → (s.replaceStorage i p u').udts[q]? = s.udts[q]? :=
    fun q hq => List.getElem?_modify_ne _ _ hq.symm
  have hset : ∀ (j : Nat) (v : UdtStorage), (s.replaceStorage i p u').udtStorage[j]? = some v →
      (j = i ∧ v = u') ∨ (j ≠ i ∧ s.udtStorage[j]? = some v) := by
    intro j v hv
    rw [Schema.replaceStorage, List.getElem?_set] at hv
    split_ifs at hv with hj hlt
    · exact Or.inl ⟨hj.symm, (Option.some.inj hv).symm⟩
    · exact Or.inr ⟨fun heq => hj heq.symm, hv⟩
  refine ⟨?_, ?_, ?_, ?_, ?_, ?_, ?_⟩
  · rw [hdecls, ← h.decls]
    exact map_set_of_eq hu hdecl
  · intro v hv
    rcases List.mem_or_eq_of_mem_set hv with hv | rfl
    · exact h.keyspaces v hv
    · rw [hkeyspace']
      exact h.keyspaces u hmem
  · intro j v hv hvlive
    rcases hset j v hv with ⟨rfl, rfl⟩ | ⟨hj, hv⟩
    · rw [hfields, UdtStorage.fields, UdtStorage.fields,
        List.map_congr_left fun t ht => hkeeps.writeType_eq (htypes t ht)]
    · obtain ⟨ks', hks'⟩ := Option.isSome_iff_exists.mp (h.keyspaces v (List.mem_of_getElem? hv))
      rw [hothers j hj, ← h.fields j v hv hvlive, UdtStorage.fields, UdtStorage.fields,
        List.map_congr_left fun t ht => hkeeps.writeType_eq (h.types v (List.mem_of_getElem? hv) hvlive ks' hks' t ht)]
  · intro v hv
    rcases List.mem_or_eq_of_mem_set hv with hv | rfl
    · exact h.lengths v hv
    · exact hlengths
  · intro v hv hvlive ks' hks' t ht
    refine hkeeps.resolvesIn ?_
    rcases List.mem_or_eq_of_mem_set hv with hv | rfl
    · exact h.types v hv hvlive ks' hks' t ht
    · have hsame : s.readKeyspace u.keyspace = some ks' := hkeyspace' ▸ hks'
      obtain rfl := Option.some.inj (hks.symm.trans hsame)
      exact htypes t ht
  · intro ks' k name q hk hq
    obtain ⟨hread, v, hv, hvlive, hkeyspace, hname, hvudt⟩ := h.bound ks' k name q hk hq
    refine ⟨hread, ?_⟩
    obtain ⟨j, hj⟩ := List.mem_iff_getElem?.mp hv
    by_cases hji : j = i
    · subst hji
      rw [hu] at hj
      obtain rfl := Option.some.inj hj
      -- the name stands for the type itself
      obtain rfl : ks' = ks := Option.some.inj ((hkeyspace ▸ hread).symm.trans hks)
      obtain rfl : q = p := Option.some.inj
        ((Schema.readUdt_eq_some.mpr ⟨k, hk, hname ▸ hq⟩ : s.readUdt ks' u.name = some q).symm.trans hp)
      exact ⟨u', List.mem_set (List.getElem?_eq_some_iff.mp hu).1 _, htombstone'.trans hlive,
        hkeyspace'.trans hkeyspace, hname'.trans hname, hnew⟩
    · refine ⟨v, ?_, hvlive, hkeyspace, hname, ?_⟩
      · refine List.mem_of_getElem? (i := j) ?_
        rw [Schema.replaceStorage, List.getElem?_set_ne (Ne.symm hji), hj]
      · rw [hold q (hother j v q hj hvlive hvudt hji), hvudt]
  · intro v hv hvlive
    obtain ⟨j, hj⟩ := List.mem_iff_getElem?.mp hv
    rcases hset j v hj with ⟨rfl, rfl⟩ | ⟨hji, hj⟩
    · exact ⟨ks, p, hkeyspace' ▸ hks, hname' ▸ hp, hnew⟩
    · obtain ⟨ks', q, hks', hq, hvudt⟩ := h.found v (List.mem_of_getElem? hj) hvlive
      exact ⟨ks', q, hks', hq, by rw [hold q (hother j v q hj hvlive hvudt hji), hvudt]⟩

theorem TypesStored.pushField {log : UdtLog} {s : Schema} (h : TypesStored log s) (hunique : UniqueStorage s)
    {i p ks : Nat} {u : UdtStorage} (hu : s.udtStorage[i]? = some u) (hlive : u.tombstone = false)
    (hks : s.readKeyspace u.keyspace = some ks) (hp : s.readUdt ks u.name = some p) {type : Ty}
    (ht : s.ResolvesIn ks type) (offset : Nat) (name : String8) :
    TypesStored (log ++ [(.field false i name (writeType (udtName s.udts) type), offset)])
      (s.pushField i p u offset name type) := by
  have hlengths := h.lengths u (List.mem_of_getElem? hu)
  refine h.replaceStorage hunique hu hlive hks hp rfl ?_ ?_ (fun j hj => ?_) ?_ ?_
  · rw [UdtLog.decls_append]
    exact List.append_nil _
  · rw [UdtLog.liveFields_append, UdtStorage.fields_addFields hlengths, h.fields i u hu hlive]
    simp [UdtLog.liveFields, liveFieldOf]
  · rw [UdtLog.liveFields_append]
    simp [UdtLog.liveFields, liveFieldOf, hj.symm]
  · simp [UdtStorage.addFields, hlengths]
  · exact forall_mem_append_singleton (h.types u (List.mem_of_getElem? hu) hlive ks hks) ht

theorem TypesStored.pushDeadField {log : UdtLog} {s : Schema} (h : TypesStored log s) {i : Nat} {u : UdtStorage}
    (hu : s.udtStorage[i]? = some u) {tombstone : Bool} (hdead : (tombstone || u.tombstone) = true)
    (name : String8) (typeBytes : Bytes) (offset : Nat) :
    TypesStored (log ++ [(.field tombstone i name typeBytes, offset)]) s where
  decls := by
    rw [UdtLog.decls_append, ← h.decls]
    exact (List.append_nil _).symm
  keyspaces := h.keyspaces
  fields j v hv hvlive := by
    have hnone : UdtLog.liveFields [(UdtRecord.field tombstone i name typeBytes, offset)] j = [] := by
      cases tombstone with
      | true => rfl
      | false =>
          have hij : i ≠ j := by
            rintro rfl
            rw [hu] at hv
            rw [Option.some.inj hv, hvlive] at hdead
            cases hdead
          simp [UdtLog.liveFields, liveFieldOf, hij]
    rw [UdtLog.liveFields_append, hnone, List.append_nil, h.fields j v hv hvlive]
  lengths := h.lengths
  types := h.types
  bound := h.bound
  found := h.found

end Plexdb.Cql.Schema
