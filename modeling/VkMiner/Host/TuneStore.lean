import VkMiner.Host.TuneCache
set_option autoImplicit false

/-! How the cache file is replaced, step by step, and what is there when a step fails or the
process is killed. -/

namespace VkMiner.TuneCache

/-- The file, and the one that is written beside it. -/
structure Disk where
  cache : Option Bytes
  tmp : Option Bytes

/-- How `json_dump_file` ends, and what it leaves of the file that it writes. -/
inductive Dumped where
  | whole
  | fails (tmp : Option Bytes)
  | killed (tmp : Option Bytes)

/-- Where the process can be killed once the file has been dumped. -/
inductive Point where
  | dumped
  | removed
  | renamed
  deriving DecidableEq

/-- What the system answers a store with. `overwrites` is whether a rename replaces a file that
is there, which it does not on Windows. -/
structure System where
  reads : Bool
  dumped : Dumped
  removes : Bool
  renames : Bool
  overwrites : Bool
  killed : Option Point

def System.document (sys : System) (J : Jansson) (file : Option Bytes) (key : CStr)
    (entry : Json) : Json :=
  merged (if sys.reads then file.bind J.load else none) key entry

/-- `tune_cache_store`: the disk that it leaves, and what it returns unless it is killed. -/
def tuneCacheStore (J : Jansson) (sys : System) (disk : Disk) (key : CStr) (entry : Json) :
    Disk × Option Bool :=
  match sys.dumped with
  | .killed tmp => ({ disk with tmp },none)
  | .fails tmp => ({ disk with tmp },some false)
  | .whole =>
    let disk := { disk with tmp := some (J.dump (sys.document J disk.cache key entry)) }
    if sys.killed = some .dumped then (disk,none)
    else
      let disk := if sys.removes then { disk with cache := none } else disk
      if sys.killed = some .removed then (disk,none)
      else if sys.renames ∧ (disk.cache = none ∨ sys.overwrites) then
        (⟨disk.tmp,none⟩,if sys.killed = some .renamed then none else some true)
      else ({ disk with tmp := none },some false)

/-- What the file has under a key. -/
def held (J : Jansson) (file : Option Bytes) (key : CStr) : Option Json :=
  jsonObjectGet (entriesOf (file.bind J.load)) key

def Intact (J : Jansson) (old : Option Bytes) (key : CStr) (entry : Json) (file : Option Bytes) :
    Prop :=
  file.isSome ∧ ((∀ k, Same (held J file k) (held J old k)) ∨
    ∀ k, Same (held J file k) (if k = key then some entry else held J old k))

/-- A store keeps the file whole wherever it ends, and where it succeeds it leaves the other
entries alone and the tuning is read back. -/
structure Kept (J : Jansson) (old : Option Bytes) (key : CStr) (entry : Json) (t : Tuning)
    (r : Disk × Option Bool) : Prop where
  intact : Intact J old key entry r.1.cache
  others : r.2 = some true → ∀ k, k ≠ key → Same (held J r.1.cache k) (held J old k)
  loads : r.2 = some true → tuneCacheLoad J r.1.cache key = some t

structure Storable (key : CStr) (t : Tuning) : Prop where
  key : JsonText.utf8 key = true
  localSizeX : t.localSizeX ≠ 0
  queueDepth : t.queueDepth ≠ 0
  variant : JsonText.utf8 t.variant = true
  rate : t.rate.isSome
  soakSeconds : t.soakSeconds.isSome

/-- The old entries are in what is written: the file could be read, or it had no others. -/
def Carried (J : Jansson) (sys : System) (old : Option Bytes) (key : CStr) : Prop :=
  sys.reads = true ∨ ∀ k, k ≠ key → held J old k = none

/-- Once the new file is written, the old one is not taken away for nothing, and what takes its
place has everything in it. -/
structure Replaces (J : Jansson) (sys : System) (old : Option Bytes) (key : CStr) (t : Tuning) :
    Prop where
  gap : sys.removes = true → sys.killed ≠ some .removed ∧ sys.renames = true
  carried : sys.killed ≠ some .removed → sys.renames = true →
    sys.removes = true ∨ sys.overwrites = true → Carried J sys old key
  storable : sys.killed = none → sys.renames = true →
    sys.removes = true ∨ sys.overwrites = true → Storable key t

/-- The keys of a file are UTF-8. -/
def Utf8Keys (J : Jansson) (file : Option Bytes) : Prop :=
  ∀ k, held J file k ≠ none → JsonText.utf8 k = true

variable {J : Jansson} {sys : System} {disk : Disk} {key : CStr} {entry : Json} {t : Tuning}

theorem held_document (h : J.ReadsBack (sys.document J disk.cache key entry)) (k : CStr) :
    Same (held J (some (J.dump (sys.document J disk.cache key entry))) k)
      (if k = key ∧ JsonText.utf8 key = true then some entry
        else if sys.reads then held J disk.cache k else none) := by
  have hs := (entriesOf_congr h).get k
  rw [System.document,held_merged] at hs
  refine hs.trans ?_
  split
  · exact .refl _
  · cases sys.reads <;> exact .refl _

theorem not_same_none {v : Json} : ¬Same none (some v) := by
  intro h
  cases h.head

/-- The new file has all of the new entries where it carries the old ones. -/
theorem intact_iff (h : J.ReadsBack (sys.document J disk.cache key entry))
    (hu : Utf8Keys J disk.cache) :
    Intact J disk.cache key entry (some (J.dump (sys.document J disk.cache key entry))) ↔
      Carried J sys disk.cache key := by
  have hd := held_document h
  refine ⟨fun hi => ?_,fun hc => ⟨rfl,?_⟩⟩
  · by_contra hc
    obtain ⟨hr,hk⟩ := not_or.mp hc
    push Not at hk
    obtain ⟨k,hk,hn⟩ := hk
    have hnone : Same (held J (some (J.dump (sys.document J disk.cache key entry))) k) none := by
      simpa [hk,hr] using hd k
    have hsame : Same (held J (some (J.dump (sys.document J disk.cache key entry))) k)
        (held J disk.cache k) := by
      obtain ho | hn := hi.2
      · exact ho k
      · simpa [hk] using hn k
    obtain ⟨v,hv⟩ := Option.ne_none_iff_exists'.mp hn
    rw [hv] at hsame
    exact not_same_none (hnone.symm.trans hsame)
  · by_cases hkey : JsonText.utf8 key = true
    · refine .inr fun k => ?_
      have hk := hd k
      by_cases he : k = key
      · simpa [he,hkey] using hk
      · obtain hr | hnone := hc
        · simpa [he,hr] using hk
        · cases hr : sys.reads with
          | true => simpa [he,hr] using hk
          | false => simpa [he,hr,hnone k he] using hk
    · refine .inl fun k => ?_
      have hk := hd k
      simp only [hkey,Bool.false_eq_true,and_false,if_false] at hk
      cases hr : sys.reads with
      | true => simpa [hr] using hk
      | false =>
        have hnone : held J disk.cache k = none := by
          by_cases he : k = key
          · by_contra hn
            exact hkey (he ▸ hu k hn)
          · exact (hc.resolve_left (by simp [hr])) k he
        simpa [hr,hnone] using hk

theorem loads_iff {description measured : CStr}
    (h : J.ReadsBack (sys.document J disk.cache key (entryFor description measured t)))
    (hu : Utf8Keys J disk.cache) :
    tuneCacheLoad J (some (J.dump (sys.document J disk.cache key
        (entryFor description measured t)))) key = some t ↔ Storable key t := by
  have hk := tuningOf_congr (held_document h key)
  rw [tuneCacheLoad,← held,hk]
  by_cases hkey : JsonText.utf8 key = true
  · rw [if_pos ⟨rfl,hkey⟩,tuningOf_entryFor]
    exact ⟨fun ⟨hx,hq,hv,hr,hs⟩ => ⟨hkey,hx,hq,hv,hr,hs⟩,
      fun hs => ⟨hs.localSizeX,hs.queueDepth,hs.variant,hs.rate,hs.soakSeconds⟩⟩
  · have hnone : held J disk.cache key = none := by
      by_contra hn
      exact hkey (hu key hn)
    rw [if_neg fun he => hkey he.2,hnone]
    refine ⟨fun he => ?_,fun hs => absurd hs.key hkey⟩
    simp only [ite_self] at he
    cases he

theorem kept_untouched {tmp : Option Bytes} {ok : Option Bool} (hc : disk.cache.isSome)
    (hok : ok ≠ some true) : Kept J disk.cache key entry t ({ disk with tmp },ok) where
  intact := ⟨hc,.inl fun _ => .refl _⟩
  others h := absurd h hok
  loads h := absurd h hok

theorem not_kept_gone {tmp : Option Bytes} {ok : Option Bool} {old : Option Bytes} :
    ¬Kept J old key entry t (⟨none,tmp⟩,ok) := fun h => by cases h.intact.1

theorem kept_moved {description measured : CStr} {ok : Option Bool}
    (h : J.ReadsBack (sys.document J disk.cache key (entryFor description measured t)))
    (hu : Utf8Keys J disk.cache) :
    Kept J disk.cache key (entryFor description measured t) t
        (⟨some (J.dump (sys.document J disk.cache key (entryFor description measured t))),none⟩,
          ok) ↔
      Carried J sys disk.cache key ∧ (ok = some true → Storable key t) := by
  refine ⟨fun hk => ⟨(intact_iff h hu).mp hk.intact,fun ho => (loads_iff h hu).mp (hk.loads ho)⟩,
    fun ⟨hc,hs⟩ => ⟨(intact_iff h hu).mpr hc,fun _ k hk => ?_,fun ho => (loads_iff h hu).mpr (hs ho)⟩⟩
  have hd := held_document h k
  rw [if_neg fun he => hk he.1] at hd
  obtain hr | hn := hc
  · rwa [if_pos hr] at hd
  · rw [hn k hk] at hd ⊢
    rwa [ite_self] at hd

theorem killed_cases {killed : Option Point} (hd : killed ≠ some .dumped)
    (hr : killed ≠ some .removed) : killed = none ∨ killed = some .renamed := by
  rcases killed with _ | p
  · exact .inl rfl
  · cases p with
    | dumped => exact absurd rfl hd
    | removed => exact absurd rfl hr
    | renamed => exact .inr rfl

theorem kept_replaced {description measured : CStr}
    (h : J.ReadsBack (sys.document J disk.cache key (entryFor description measured t)))
    (hu : Utf8Keys J disk.cache) (hd : sys.killed ≠ some .dumped)
    (hr : sys.killed ≠ some .removed) (hn : sys.renames = true)
    (hm : sys.removes = true ∨ sys.overwrites = true) :
    Kept J disk.cache key (entryFor description measured t) t
        (⟨some (J.dump (sys.document J disk.cache key (entryFor description measured t))),none⟩,
          if sys.killed = some .renamed then none else some true) ↔
      Replaces J sys disk.cache key t := by
  rw [kept_moved h hu]
  constructor
  · intro hk
    refine ⟨fun _ => ⟨hr,hn⟩,fun _ _ _ => hk.1,fun hnone _ _ => hk.2 ?_⟩
    simp [hnone]
  · intro hs
    refine ⟨hs.carried hr hn hm,fun ho => ?_⟩
    obtain hnone | hren := killed_cases hd hr
    · exact hs.storable hnone hn hm
    · simp [hren] at ho

def oldText : Bytes :=
  ascii ("\x7b\n  \"entries\": \x7b\n    \"10de-aes\": \x7b\n      \"device\": \"GPU\",\n" ++
    "      \"local_size_x\": 64,\n      \"measured\": \"2026-01-01T00:00:00Z\",\n" ++
    "      \"queue_depth\": 2,\n      \"rate\": 0.5,\n      \"soak_seconds\": 30.0\n    \x7d\n" ++
    "  \x7d,\n  \"version\": 1\n\x7d")

def newText : Bytes :=
  ascii ("\x7b\n  \"entries\": \x7b\n    \"1002-aes\": \x7b\n      \"device\": \"GPU\",\n" ++
    "      \"local_size_x\": 256,\n      \"measured\": \"2026-01-02T00:00:00Z\",\n" ++
    "      \"queue_depth\": 3,\n      \"rate\": 1.5,\n      \"soak_seconds\": 30.0\n    \x7d,\n" ++
    "    \"10de-aes\": \x7b\n      \"device\": \"GPU\",\n" ++
    "      \"local_size_x\": 64,\n      \"measured\": \"2026-01-01T00:00:00Z\",\n" ++
    "      \"queue_depth\": 2,\n      \"rate\": 0.5,\n      \"soak_seconds\": 30.0\n    \x7d\n" ++
    "  \x7d,\n  \"version\": 1\n\x7d")

def otherKey : CStr := ascii "10de-aes"

def firstKey : CStr := ascii "1002-aes"

def firstTuning : Tuning := ⟨256,3,[],some (3/2),some 30⟩

def otherEntry : Json :=
  .object [(ascii "device",.string (ascii "GPU")),(ascii "local_size_x",.integer 64),
    (ascii "measured",.string (ascii "2026-01-01T00:00:00Z")),(ascii "queue_depth",.integer 2),
    (ascii "rate",.real (1/2)),(ascii "soak_seconds",.real 30)]

def newEntry : Json :=
  .object [(ascii "device",.string (ascii "GPU")),(ascii "local_size_x",.integer 256),
    (ascii "measured",.string (ascii "2026-01-02T00:00:00Z")),(ascii "queue_depth",.integer 3),
    (ascii "rate",.real (3/2)),(ascii "soak_seconds",.real 30)]

def oldDocument : Json :=
  .object [(ascii "entries",.object [(otherKey,otherEntry)]),(ascii "version",.integer 1)]

def newDocument : Json :=
  .object [(ascii "entries",.object [(firstKey,newEntry),(otherKey,otherEntry)]),
    (ascii "version",.integer 1)]

def twoTexts : Jansson where
  load b := if b = oldText then some oldDocument
    else if b = newText then some newDocument else none
  dump _ := newText

def firstEntry : Json := entryFor (ascii "GPU") (ascii "2026-01-02T00:00:00Z") firstTuning

theorem same_object {fs gs : List (CStr × Json)}
    (h : ∀ k, Same (jsonObjectGet (some (.object fs)) k) (jsonObjectGet (some (.object gs)) k)) :
    Same (some (.object fs)) (some (.object gs)) := by
  intro path
  cases path with
  | nil => rfl
  | cons a path =>
    cases a with
    | key k => exact h k path
    | index i => rfl

theorem get_cons (f : CStr × Json) (fields : List (CStr × Json)) (k : CStr) :
    jsonObjectGet (some (.object (f :: fields))) k =
      if f.1 = k then some f.2 else jsonObjectGet (some (.object fields)) k := by
  by_cases hk : f.1 = k <;> simp [jsonObjectGet,hk]

theorem firstEntry_fields : firstEntry = .object
    [(ascii "device",.string (ascii "GPU")),(ascii "local_size_x",.integer 256),
      (ascii "queue_depth",.integer 3),(ascii "rate",.real (3/2)),(ascii "soak_seconds",.real 30),
      (ascii "measured",.string (ascii "2026-01-02T00:00:00Z"))] := rfl

theorem firstEntry_same : Same (some newEntry) (some firstEntry) := by
  rw [firstEntry_fields]
  refine same_object fun k => ?_
  -- the two list one field at another place
  by_cases hk : ascii "measured" = k
  · subst hk
    simp +decide only [get_cons,if_true,if_false]
    exact .refl _
  · simp only [get_cons,if_neg hk]
    exact .refl _

def oldDisk : Disk := ⟨some oldText,none⟩

/-- Nothing fails. -/
def wellBehaved : System := ⟨true,.whole,true,true,true,none⟩

theorem twoTexts_old : oldDisk.cache.bind twoTexts.load = some oldDocument := by
  simp only [oldDisk,Option.bind_some,twoTexts,if_true]

theorem newText_ne : newText ≠ oldText := by
  intro h
  have hat := congrArg (·[24]?) h
  simp only [newText,oldText,ascii,String.toList_append,List.map_append,List.append_assoc] at hat
  rw [List.getElem?_append_left (by decide),List.getElem?_append_left (by decide)] at hat
  revert hat
  decide

theorem twoTexts_new : twoTexts.load newText = some newDocument := by
  simp only [twoTexts,newText_ne,if_false,if_true]

theorem twoTexts_dump (v : Json) : twoTexts.dump v = newText := by
  simp only [twoTexts]

theorem firstDocument : wellBehaved.document twoTexts oldDisk.cache firstKey firstEntry = .object
    [(ascii "entries",.object [(otherKey,otherEntry),(firstKey,firstEntry)]),
      (ascii "version",.integer 1)] := by
  have hreads : wellBehaved.reads = true := rfl
  rw [System.document,if_pos hreads,twoTexts_old]
  rfl

theorem firstDocument_readsBack :
    twoTexts.ReadsBack (wellBehaved.document twoTexts oldDisk.cache firstKey firstEntry) := by
  rw [Jansson.ReadsBack,twoTexts_dump,twoTexts_new,firstDocument]
  refine same_object fun k => ?_
  simp only [get_cons]
  split
  · refine same_object fun k => ?_
    by_cases hk : firstKey = k
    · subst hk
      simp +decide only [get_cons,if_true,if_false]
      exact firstEntry_same
    · simp only [get_cons,if_neg hk]
      exact .refl _
  · exact .refl _

theorem oldDisk_utf8 : Utf8Keys twoTexts oldDisk.cache := by
  intro k hk
  have hentries : entriesOf (some oldDocument) = some (.object [(otherKey,otherEntry)]) := rfl
  rw [held,twoTexts_old,hentries,get_cons] at hk
  split at hk
  · next he =>
    rw [← he]
    decide
  · exact absurd rfl hk

def killedBetween : System := { wellBehaved with killed := some .removed }

end VkMiner.TuneCache
