import VkMiner.Core.Hex
import VkMiner.Core.Json
import VkMiner.Lib.JsonText
set_option autoImplicit false

/-! The tune cache: what a sweep found, kept in one JSON file by key, and how an entry gets into
the file. -/

namespace VkMiner.TuneCache

/-- jansson's text format, with the flags that the cache reads and writes with. -/
structure Jansson where
  load : Bytes → Option Json
  dump : Json → Bytes

inductive Access where
  | key (k : CStr)
  | index (i : Nat)

def shallow : Json → Json
  | .array _ => .array []
  | .object _ => .object []
  | j => j

def follow (j : Option Json) : List Access → Option Json
  | [] => j
  | .key k :: path => follow (jsonObjectGet j k) path
  | .index i :: path => follow (jsonArrayGet j i) path

def Same (j j' : Option Json) : Prop :=
  ∀ path, (follow j path).map shallow = (follow j' path).map shallow

/-- What is dumped is loaded back the same. -/
def Jansson.ReadsBack (J : Jansson) (v : Json) : Prop := Same (J.load (J.dump v)) (some v)

/-- `json_object_set_new`, which takes no key that is not UTF-8 and no missing value. -/
def setNew (fields : List (CStr × Json)) (key : CStr) (value : Option Json) :
    List (CStr × Json) :=
  match value with
  | none => fields
  | some v =>
    if JsonText.utf8 key then
      if fields.any (·.1 == key) then fields.map fun f => if f.1 == key then (f.1,v) else f
      else fields ++ [(key,v)]
    else fields

def jsonString (s : CStr) : Option Json := if JsonText.utf8 s then some (.string s) else none

/-- `json_real`, where `none` is a double that is no number or infinite. -/
def jsonReal (x : Option Rat) : Option Json := x.map .real

structure Tuning where
  localSizeX : UInt32
  queueDepth : UInt32
  variant : CStr
  rate : Option Rat
  soakSeconds : Option Rat
  deriving DecidableEq

def kVersion : Int := 1

def isObject : Option Json → Bool
  | some (.object _) => true
  | _ => false

def entriesOf (root : Option Json) : Option Json :=
  if isObject root then
    match jsonObjectGet root (ascii "version") with
    | some (.integer n) =>
      if n = kVersion ∧ isObject (jsonObjectGet root (ascii "entries")) then
        jsonObjectGet root (ascii "entries")
      else none
    | _ => none
  else none

def positiveInteger (object : Option Json) (field : CStr) : UInt32 :=
  match jsonObjectGet object field with
  | some (.integer n) => if n ≤ 0 ∨ 0xffffffff < n then 0 else UInt32.ofNat n.toNat
  | _ => 0

def tuningOf (entry : Option Json) : Option Tuning :=
  if isObject entry then
    let tuning : Tuning := {
      localSizeX := positiveInteger entry (ascii "local_size_x")
      queueDepth := positiveInteger entry (ascii "queue_depth")
      variant := (jsonStringValue (jsonObjectGet entry (ascii "variant"))).getD []
      rate := some (jsonNumberValue (jsonObjectGet entry (ascii "rate")))
      soakSeconds := some (jsonNumberValue (jsonObjectGet entry (ascii "soak_seconds"))) }
    if tuning.localSizeX ≠ 0 ∧ tuning.queueDepth ≠ 0 then some tuning else none
  else none

def tuneCacheLoad (J : Jansson) (file : Option Bytes) (key : CStr) : Option Tuning :=
  tuningOf (jsonObjectGet (entriesOf (file.bind J.load)) key)

def entryFor (description measured : CStr) (t : Tuning) : Json :=
  let entry := setNew [] (ascii "device") (jsonString description)
  let entry := setNew entry (ascii "local_size_x") (some (.integer t.localSizeX.toNat))
  let entry := setNew entry (ascii "queue_depth") (some (.integer t.queueDepth.toNat))
  let entry := if t.variant = [] then entry
    else setNew entry (ascii "variant") (jsonString t.variant)
  let entry := setNew entry (ascii "rate") (jsonReal t.rate)
  let entry := setNew entry (ascii "soak_seconds") (jsonReal t.soakSeconds)
  .object (setNew entry (ascii "measured") (jsonString measured))

/-- The document with the entry in it: into the entries that were read, or into fresh ones. -/
def merged (root : Option Json) (key : CStr) (entry : Json) : Json :=
  match root,entriesOf root with
  | some (.object fields),some (.object entries) =>
    .object (setNew fields (ascii "entries") (some (.object (setNew entries key (some entry)))))
  | _,_ =>
    .object (setNew (setNew [] (ascii "version") (some (.integer kVersion))) (ascii "entries")
      (some (.object (setNew [] key (some entry)))))

variable {j j' : Option Json} {k key : CStr} {fields : List (CStr × Json)}

/-! ### Values that no accessor tells apart -/

theorem Same.refl (j : Option Json) : Same j j := fun _ => rfl

theorem Same.trans {i : Option Json} (h : Same i j) (h' : Same j j') : Same i j' :=
  fun path => (h path).trans (h' path)

theorem Same.symm (h : Same j j') : Same j' j := fun path => (h path).symm

theorem Same.head (h : Same j j') : j.map shallow = j'.map shallow := h []

theorem Same.get (h : Same j j') (k : CStr) : Same (jsonObjectGet j k) (jsonObjectGet j' k) :=
  fun path => h (.key k :: path)

theorem isObject_shallow (j : Option Json) : isObject j = isObject (j.map shallow) := by
  rcases j with _ | v
  · rfl
  · cases v <;> rfl

theorem string_shallow (j : Option Json) : jsonStringValue j = jsonStringValue (j.map shallow) := by
  rcases j with _ | v
  · rfl
  · cases v <;> rfl

theorem number_shallow (j : Option Json) : jsonNumberValue j = jsonNumberValue (j.map shallow) := by
  rcases j with _ | v
  · rfl
  · cases v <;> rfl

theorem shallow_integer {j : Option Json} {n : Int} :
    j.map shallow = some (.integer n) ↔ j = some (.integer n) := by
  rcases j with _ | v
  · simp
  · cases v <;> simp [shallow]

theorem Same.integer {n : Int} (h : Same j j') : j = some (.integer n) ↔ j' = some (.integer n) := by
  rw [← shallow_integer,h.head,shallow_integer]

theorem Same.isObject (h : Same j j') : isObject j = isObject j' := by
  rw [isObject_shallow,h.head,← isObject_shallow]

theorem positiveInteger_congr (h : Same j j') (field : CStr) :
    positiveInteger j field = positiveInteger j' field := by
  have hg := h.get field
  unfold positiveInteger
  by_cases hn : ∃ n, jsonObjectGet j field = some (.integer n)
  · obtain ⟨n,hn⟩ := hn
    rw [hn,hg.integer.mp hn]
  · have hn' : ¬∃ n, jsonObjectGet j' field = some (.integer n) :=
      fun ⟨n,hj⟩ => hn ⟨n,hg.integer.mpr hj⟩
    split
    · rename_i n hj
      exact absurd ⟨n,hj⟩ hn
    · split
      · rename_i n hj
        exact absurd ⟨n,hj⟩ hn'
      · rfl

theorem tuningOf_congr (h : Same j j') : tuningOf j = tuningOf j' := by
  have hs (f : CStr) : jsonStringValue (jsonObjectGet j f) = jsonStringValue (jsonObjectGet j' f) := by
    rw [string_shallow,(h.get f).head,← string_shallow]
  have hn (f : CStr) : jsonNumberValue (jsonObjectGet j f) = jsonNumberValue (jsonObjectGet j' f) := by
    rw [number_shallow,(h.get f).head,← number_shallow]
  unfold tuningOf
  rw [h.isObject,positiveInteger_congr h,positiveInteger_congr h,hs,hn,hn]

def versioned (root : Option Json) : Prop :=
  isObject root = true ∧ jsonObjectGet root (ascii "version") = some (.integer kVersion) ∧
    isObject (jsonObjectGet root (ascii "entries")) = true

theorem entriesOf_versioned (h : versioned j) : entriesOf j = jsonObjectGet j (ascii "entries") := by
  obtain ⟨ho,hv,he⟩ := h
  unfold entriesOf
  rw [if_pos ho,hv]
  simp only
  rw [if_pos ⟨trivial,he⟩]

theorem entriesOf_unversioned (h : ¬versioned j) : entriesOf j = none := by
  unfold entriesOf
  split
  · rename_i ho
    split
    · rename_i n hv
      rw [if_neg]
      rintro ⟨rfl,he⟩
      exact h ⟨ho,hv,he⟩
    · rfl
  · rfl

theorem entriesOf_congr (h : Same j j') : Same (entriesOf j) (entriesOf j') := by
  have hiff : versioned j ↔ versioned j' := by
    unfold versioned
    rw [h.isObject,(h.get _).integer,(h.get (ascii "entries")).isObject]
  by_cases hv : versioned j
  · rw [entriesOf_versioned hv,entriesOf_versioned (hiff.mp hv)]
    exact h.get _
  · rw [entriesOf_unversioned hv,entriesOf_unversioned (mt hiff.mpr hv)]
    exact .refl _

/-! ### What a store writes -/

theorem get_map (fields : List (CStr × Json)) (key : CStr) (v : Json) (k : CStr) :
    jsonObjectGet (some (.object (fields.map fun f => if f.1 == key then (f.1,v) else f))) k =
      if k = key then (jsonObjectGet (some (.object fields)) k).map fun _ => v
      else jsonObjectGet (some (.object fields)) k := by
  simp only [jsonObjectGet]
  induction fields with
  | nil => simp
  | cons f fields ih =>
    by_cases hf : f.1 = key
    · by_cases hk : k = key
      · simp [hf,hk]
      · have hne : ¬key = k := fun h => hk h.symm
        simpa [hf,hk,hne] using ih
    · by_cases hk : f.1 = k
      · have hne : ¬k = key := fun h => hf (hk.trans h)
        simp [hk,hne]
      · simpa [hf,hk] using ih

theorem get_append (fields : List (CStr × Json)) (key : CStr) (v : Json)
    (h : fields.any (·.1 == key) = false) (k : CStr) :
    jsonObjectGet (some (.object (fields ++ [(key,v)]))) k =
      if k = key then some v else jsonObjectGet (some (.object fields)) k := by
  simp only [jsonObjectGet,List.find?_append]
  by_cases hk : k = key
  · subst hk
    have hn : fields.find? (fun f => f.1 == k) = none := by
      simpa using h
    simp [hn]
  · have hne : ¬key = k := fun h => hk h.symm
    simp [hk,hne]

theorem get_isSome (h : fields.any (·.1 == k) = true) :
    ∃ v, jsonObjectGet (some (.object fields)) k = some v := by
  obtain ⟨f,hf,he⟩ := List.any_eq_true.mp h
  have hs : (fields.find? fun f => f.1 == k).isSome := List.find?_isSome.mpr ⟨f,hf,he⟩
  obtain ⟨g,hg⟩ := Option.isSome_iff_exists.mp hs
  exact ⟨g.2,by simp [jsonObjectGet,hg]⟩

theorem get_setNew (fields : List (CStr × Json)) (key : CStr) (v : Option Json) (k : CStr) :
    jsonObjectGet (some (.object (setNew fields key v))) k =
      if k = key ∧ JsonText.utf8 key = true ∧ v ≠ none then v
      else jsonObjectGet (some (.object fields)) k := by
  cases v with
  | none => simp [setNew]
  | some v =>
    unfold setNew
    by_cases hu : JsonText.utf8 key = true
    · simp only [hu,if_true]
      cases hf : fields.any (·.1 == key) with
      | true =>
        rw [if_pos rfl,get_map]
        by_cases hk : k = key
        · subst hk
          obtain ⟨w,hw⟩ := get_isSome hf
          simp [hw]
        · simp [hk]
      | false =>
        rw [if_neg Bool.false_ne_true,get_append _ _ _ hf]
        by_cases hk : k = key <;> simp [hk]
    · simp [hu]

theorem positiveInteger_toNat {x : UInt32}
    (h : jsonObjectGet j k = some (.integer x.toNat)) : positiveInteger j k = x := by
  have hx := x.toNat_lt
  unfold positiveInteger
  rw [h]
  simp only
  split
  · have : x.toNat = 0 := by omega
    exact (UInt32.toNat_inj.mp this).symm
  · simp

theorem get_nil (k : CStr) : jsonObjectGet (some (.object [])) k = none := rfl

theorem entryFor_sizes (description measured : CStr) (t : Tuning) :
    jsonObjectGet (some (entryFor description measured t)) (ascii "local_size_x") =
        some (.integer t.localSizeX.toNat) ∧
      jsonObjectGet (some (entryFor description measured t)) (ascii "queue_depth") =
        some (.integer t.queueDepth.toNat) := by
  unfold entryFor
  split <;> constructor <;> simp +decide [get_setNew]

theorem entryFor_variant (description measured : CStr) (t : Tuning) :
    jsonObjectGet (some (entryFor description measured t)) (ascii "variant") =
      if t.variant = [] then none else jsonString t.variant := by
  unfold entryFor
  split
  · simp +decide only [get_setNew,get_nil,if_false,false_and]
  · simp +decide only [get_setNew,get_nil,if_false,false_and,true_and]
    split <;> simp_all

theorem entryFor_rates (description measured : CStr) (t : Tuning) :
    jsonObjectGet (some (entryFor description measured t)) (ascii "rate") = jsonReal t.rate ∧
      jsonObjectGet (some (entryFor description measured t)) (ascii "soak_seconds") =
        jsonReal t.soakSeconds := by
  unfold entryFor
  split <;> constructor <;> simp +decide only [get_setNew,get_nil,if_false,false_and,true_and] <;>
    split <;> simp_all

theorem utf8_nil : JsonText.utf8 [] = true := rfl

theorem tuningOf_entryFor (description measured : CStr) (t : Tuning) :
    tuningOf (some (entryFor description measured t)) = some t ↔
      t.localSizeX ≠ 0 ∧ t.queueDepth ≠ 0 ∧ JsonText.utf8 t.variant = true ∧ t.rate.isSome ∧
        t.soakSeconds.isSome := by
  obtain ⟨hx,hq⟩ := entryFor_sizes description measured t
  obtain ⟨hr,hs⟩ := entryFor_rates description measured t
  have hv := entryFor_variant description measured t
  have ho : isObject (some (entryFor description measured t)) = true := rfl
  unfold tuningOf
  rw [if_pos ho,positiveInteger_toNat hx,positiveInteger_toNat hq,hr,hs,hv]
  obtain ⟨x,q,variant,rate,soak⟩ := t
  have hvariant : (jsonStringValue (if variant = [] then none else jsonString variant)).getD [] =
      variant ↔ JsonText.utf8 variant = true := by
    by_cases hn : variant = []
    · simp [hn,jsonStringValue,utf8_nil]
    · by_cases hu : JsonText.utf8 variant = true
      · simp [hn,jsonString,hu,jsonStringValue]
      · have hne : ¬[] = variant := fun h => hn h.symm
        simp [hn,jsonString,hu,jsonStringValue,hne]
  have hreal (r : Option Rat) : some (jsonNumberValue (jsonReal r)) = r ↔ r.isSome := by
    cases r <;> simp [jsonReal,jsonNumberValue]
  simp only []
  split
  · rename_i hp
    simp only [Option.some.injEq,Tuning.mk.injEq,hvariant,hreal,true_and,hp.1,hp.2,ne_eq,
      not_false_eq_true]
  · rename_i hp
    simp only [reduceCtorEq,false_iff]
    exact fun h => hp ⟨h.1,h.2.1⟩

theorem isObject_fields (h : isObject j = true) : ∃ fields, j = some (.object fields) := by
  rcases j with _ | v
  · cases h
  · cases v with
    | object fields => exact ⟨fields,rfl⟩
    | _ => cases h

theorem merged_cases (root : Option Json) (key : CStr) (entry : Json) :
    (∃ fields entries, root = some (.object fields) ∧ versioned root ∧
      jsonObjectGet root (ascii "entries") = some (.object entries) ∧
      merged root key entry = .object (setNew fields (ascii "entries")
        (some (.object (setNew entries key (some entry)))))) ∨
    (entriesOf root = none ∧ merged root key entry =
      .object (setNew (setNew [] (ascii "version") (some (.integer kVersion))) (ascii "entries")
        (some (.object (setNew [] key (some entry)))))) := by
  by_cases hv : versioned root
  · obtain ⟨fields,rfl⟩ := isObject_fields hv.1
    obtain ⟨entries,he⟩ := isObject_fields hv.2.2
    refine .inl ⟨fields,entries,rfl,hv,he,?_⟩
    simp only [merged,(entriesOf_versioned hv).trans he]
  · have hn := entriesOf_unversioned hv
    refine .inr ⟨hn,?_⟩
    unfold merged
    rw [hn]
    split
    · rename_i h
      cases h
    · rfl

/-- The entries of the document that is written: those that were read, and the new one. -/
theorem held_merged (root : Option Json) (key : CStr) (entry : Json) (k : CStr) :
    jsonObjectGet (entriesOf (some (merged root key entry))) k =
      if k = key ∧ JsonText.utf8 key = true then some entry
      else jsonObjectGet (entriesOf root) k := by
  obtain ⟨fields,entries,rfl,hv,he,hm⟩ | ⟨hn,hm⟩ := merged_cases root key entry
  · have hget : jsonObjectGet (some (merged (some (.object fields)) key entry)) (ascii "entries") =
        some (.object (setNew entries key (some entry))) := by
      rw [hm]
      simp +decide [get_setNew]
    have hvm : versioned (some (merged (some (.object fields)) key entry)) := by
      refine ⟨hm ▸ rfl,?_,hget ▸ rfl⟩
      have hne : ¬ascii "version" = ascii "entries" := by decide
      rw [hm,get_setNew,if_neg fun h => hne h.1]
      exact hv.2.1
    rw [entriesOf_versioned hvm,hget,entriesOf_versioned hv,he]
    simp [get_setNew]
  · have hget : jsonObjectGet (some (merged root key entry)) (ascii "entries") =
        some (.object (setNew [] key (some entry))) := by
      rw [hm]
      simp +decide [get_setNew]
    have hvm : versioned (some (merged root key entry)) := by
      refine ⟨hm ▸ rfl,?_,hget ▸ rfl⟩
      rw [hm]
      simp +decide [get_setNew]
    rw [entriesOf_versioned hvm,hget,hn,get_setNew,get_nil]
    simp [jsonObjectGet]

end VkMiner.TuneCache
