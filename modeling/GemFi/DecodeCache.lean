import GemFi.Transitions
import Mathlib.Logic.Function.Basic

/-!
The decode cache of arch/generic/decode_cache.cc, over the page map of
cpu/decode_cache.hh. A decoded instruction is an object on the heap, with the
word it was decoded from and what `decodeInst` made of that word; the two maps
of the cache hold pointers to it. An iterator of the page map is the entry it
stands at, a copy of key and value, and `none` is `end()`.
-/

namespace GemFi.DecodeCache

open Transitions

abbrev Addr := BitVec 64
abbrev ExtMachInst := BitVec 64
abbrev InstPtr := Nat
abbrev PagePtr := Nat

/-- `TheISA::PageBytes` of Alpha. -/
def pageBytes : Addr := 1 <<< 13

def pageAddr (addr : Addr) : Addr := addr &&& ~~~(pageBytes - 1)

def pageOffset (addr : Addr) : Addr := addr &&& (pageBytes - 1)

/-- `DecodeCache::AddrMap`. `pages` are the CachePage objects by address,
`newPage` is the address of the next one. -/
structure AddrMap where
  recent0 : Option (Addr × PagePtr)
  recent1 : Option (Addr × PagePtr)
  pageMap : Addr → Option PagePtr
  pages : PagePtr → Addr → Option InstPtr
  newPage : PagePtr

namespace AddrMap

def new : AddrMap := ⟨none, none, fun _ => none, fun _ _ => none, 0⟩

def update (m : AddrMap) (recentest : Addr × PagePtr) : AddrMap :=
  { m with recent0 := some recentest, recent1 := m.recent0 }

/-- The second half of `getPage`: look in the hash map, and add a page. -/
def findPage (m : AddrMap) (key : Addr) : AddrMap × PagePtr :=
  match m.pageMap key with
  | some page => (m.update (key, page), page)
  | none =>
      let page := m.newPage
      let key := pageAddr key
      ({ m with
          pageMap := Function.update m.pageMap key (some page)
          pages := Function.update m.pages page fun _ => none
          newPage := page + 1 }.update (key, page), page)

def getPage (m : AddrMap) (addr : Addr) : AddrMap × PagePtr :=
  let key := pageAddr addr
  match m.recent0, m.recent1 with
  | none, _ => m.findPage key
  | some first, none => if first.1 = key then (m, first.2) else m.findPage key
  | some first, some second =>
      if first.1 = key then (m, first.2)
      else if second.1 = key then (m.update second, second.2)  -- the two trade places
      else m.findPage key

/-- Assignment through the reference that `lookup` returned. -/
def assign (m : AddrMap) (page : PagePtr) (addr : Addr) (si : InstPtr) : AddrMap :=
  { m with
    pages := Function.update m.pages page
      (Function.update (m.pages page) (pageOffset addr) (some si)) }

end AddrMap

structure Decoded (Inst : Type) where
  machInst : ExtMachInst
  inst : Inst

/-- `GenericISA::BasicDecodeCache`, with the heap its pointers point into;
`fresh` is the address of the next object. -/
structure BasicDecodeCache (Inst : Type) where
  instMap : ExtMachInst → Option InstPtr
  decodePages : AddrMap
  mem : InstPtr → Decoded Inst
  fresh : InstPtr

variable {Inst : Type} (decodeInst : ExtMachInst → Inst)

namespace BasicDecodeCache

def new (mem : InstPtr → Decoded Inst) : BasicDecodeCache Inst :=
  ⟨fun _ => none, AddrMap.new, mem, 0⟩

/-- The part of `decode` behind the page lookup: the word map, and the decoder
itself. -/
def decodeMiss (c : BasicDecodeCache Inst) (page : PagePtr) (machInst : ExtMachInst)
    (addr : Addr) : BasicDecodeCache Inst × InstPtr :=
  match c.instMap machInst with
  | some si => ({ c with decodePages := c.decodePages.assign page addr si }, si)
  | none =>
      let si := c.fresh
      ({ instMap := Function.update c.instMap machInst (some si)
         decodePages := c.decodePages.assign page addr si
         mem := Function.update c.mem si ⟨machInst, decodeInst machInst⟩
         fresh := si + 1 }, si)

def decode (c : BasicDecodeCache Inst) (machInst : ExtMachInst) (addr : Addr) :
    BasicDecodeCache Inst × InstPtr :=
  let (decodePages, page) := c.decodePages.getPage addr
  let c := { c with decodePages := decodePages }
  match decodePages.pages page (pageOffset addr) with
  | none => c.decodeMiss decodeInst page machInst addr
  | some si =>
      if (c.mem si).machInst = machInst then (c, si)
      else c.decodeMiss decodeInst page machInst addr

end BasicDecodeCache

section Pages

/-- The recent lookups agree with the page map. -/
structure AddrMap.Agrees (m : AddrMap) : Prop where
  first : ∀ key page, m.recent0 = some (key, page) → m.pageMap key = some page
  second : ∀ key page, m.recent1 = some (key, page) → m.pageMap key = some page

/-- What a page lookup does: the page it returns is the one the map has for the
address, no page of the map is exchanged, and nothing is put on a page. -/
structure PageFound (m m' : AddrMap) (addr : Addr) (page : PagePtr) : Prop where
  agrees : m'.Agrees
  found : m'.pageMap (pageAddr addr) = some page
  kept : ∀ key other, m.pageMap key = some other → m'.pageMap key = some other
  items : ∀ other offset si, m'.pages other offset = some si → m.pages other offset = some si

theorem pageAddr_idem (addr : Addr) : pageAddr (pageAddr addr) = pageAddr addr := by
  unfold pageAddr
  rw [BitVec.and_assoc, BitVec.and_self]

variable {m : AddrMap}

theorem AddrMap.Agrees.update (agrees : m.Agrees) (key : Addr) (page : PagePtr)
    (mapped : m.pageMap key = some page) : (m.update (key, page)).Agrees := by
  constructor
  · intro key' page' isFirst
    cases isFirst
    exact mapped
  · exact agrees.first

theorem findPage_found (agrees : m.Agrees) (addr : Addr) :
    PageFound m (m.findPage (pageAddr addr)).1 addr (m.findPage (pageAddr addr)).2 := by
  unfold AddrMap.findPage
  cases looked : m.pageMap (pageAddr addr) with
  | some page =>
      exact ⟨agrees.update _ page looked, looked, fun _ _ same => same, fun _ _ _ same => same⟩
  | none =>
      dsimp only
      -- a page that is not in the map is put there, empty, under its own address
      rw [pageAddr_idem]
      have kept : ∀ key other, m.pageMap key = some other →
          Function.update m.pageMap (pageAddr addr) (some m.newPage) key = some other := by
        intro key other mapped
        have different : key ≠ pageAddr addr := by
          rintro rfl
          rw [looked] at mapped
          cases mapped
        rw [Function.update_of_ne different, mapped]
      constructor
      · apply AddrMap.Agrees.update
        · exact ⟨fun key page isFirst => kept key page (agrees.first key page isFirst),
            fun key page isSecond => kept key page (agrees.second key page isSecond)⟩
        · exact Function.update_self ..
      · exact Function.update_self ..
      · exact kept
      · intro other offset si onPage
        by_cases isNew : other = m.newPage
        · subst isNew
          simp [AddrMap.update] at onPage
        · simpa [AddrMap.update, Function.update_of_ne isNew] using onPage

theorem getPage_found (agrees : m.Agrees) (addr : Addr) :
    PageFound m (m.getPage addr).1 addr (m.getPage addr).2 := by
  have hit : ∀ page, m.pageMap (pageAddr addr) = some page → PageFound m m addr page :=
    fun page mapped => ⟨agrees, mapped, fun _ _ same => same, fun _ _ _ same => same⟩
  have search := findPage_found agrees addr
  unfold AddrMap.getPage
  dsimp only
  split
  · exact search
  · rename_i first isFirst _
    split
    · rename_i here
      exact hit first.2 (here ▸ agrees.first first.1 first.2 isFirst)
    · exact search
  · rename_i first second isFirst isSecond
    split
    · rename_i here
      exact hit first.2 (here ▸ agrees.first first.1 first.2 isFirst)
    · split
      · rename_i here
        have mapped := agrees.second second.1 second.2 isSecond
        exact ⟨agrees.update second.1 second.2 mapped, here ▸ mapped, fun _ _ same => same,
          fun _ _ _ same => same⟩
      · exact search

end Pages

section Transparency

/-- Each object is what its word decodes to, and the word map has every object
that either map leads to. -/
structure Sound (c : BasicDecodeCache Inst) : Prop where
  agrees : c.decodePages.Agrees
  mapped : ∀ word si, c.instMap word = some si →
    si < c.fresh ∧ c.mem si = ⟨word, decodeInst word⟩
  paged : ∀ page offset si, c.decodePages.pages page offset = some si →
    c.instMap (c.mem si).machInst = some si

variable {decodeInst} {c : BasicDecodeCache Inst}

theorem new_sound (mem : InstPtr → Decoded Inst) :
    Sound decodeInst (BasicDecodeCache.new mem) := by
  constructor
  · constructor <;> intro key page recent <;> cases recent
  · intro word si isMapped
    cases isMapped
  · intro page offset si onPage
    cases onPage

/-- What a call of `decode` returns and leaves. `kept` says that the word map
only grows and that no object changes. -/
structure DecodeResult (decodeInst : ExtMachInst → Inst) (c c' : BasicDecodeCache Inst)
    (word : ExtMachInst) (si : InstPtr) : Prop where
  sound : Sound decodeInst c'
  returned : c'.instMap word = some si
  kept : ∀ other p, c.instMap other = some p → c'.instMap other = some p

theorem items_assign {m : AddrMap} {page other : PagePtr} {addr offset : Addr} {si p : InstPtr}
    (onPage : (m.assign page addr si).pages other offset = some p) :
    p = si ∨ m.pages other offset = some p := by
  by_cases samePage : other = page
  · subst samePage
    by_cases sameItem : offset = pageOffset addr
    · subst sameItem
      left
      simpa [AddrMap.assign] using onPage.symm
    · right
      simpa [AddrMap.assign, Function.update_of_ne sameItem] using onPage
  · right
    simpa [AddrMap.assign, Function.update_of_ne samePage] using onPage

theorem decodeMiss_result (sound : Sound decodeInst c) (page : PagePtr) (word : ExtMachInst)
    (addr : Addr) :
    DecodeResult decodeInst c (c.decodeMiss decodeInst page word addr).1 word
      (c.decodeMiss decodeInst page word addr).2 := by
  unfold BasicDecodeCache.decodeMiss
  cases known : c.instMap word with
  | some si =>
      refine ⟨⟨⟨sound.agrees.first, sound.agrees.second⟩, sound.mapped, ?_⟩, known,
        fun _ _ same => same⟩
      intro other offset p onPage
      rcases items_assign onPage with rfl | before
      · dsimp only
        rw [(sound.mapped word p known).2]
        exact known
      · exact sound.paged other offset p before
  | none =>
      have different : ∀ other p, c.instMap other = some p → other ≠ word ∧ p ≠ c.fresh := by
        intro other p isMapped
        refine ⟨?_, Nat.ne_of_lt (sound.mapped other p isMapped).1⟩
        rintro rfl
        rw [known] at isMapped
        cases isMapped
      have kept : ∀ other p, c.instMap other = some p →
          Function.update c.instMap word (some c.fresh) other = some p := by
        intro other p isMapped
        rw [Function.update_of_ne (different other p isMapped).1, isMapped]
      refine ⟨⟨⟨sound.agrees.first, sound.agrees.second⟩, ?_, ?_⟩, Function.update_self .., kept⟩
      · intro other p isMapped
        dsimp only at isMapped ⊢
        by_cases isNew : other = word
        · subst isNew
          rw [Function.update_self] at isMapped
          cases isMapped
          exact ⟨Nat.lt_succ_self _, Function.update_self ..⟩
        · rw [Function.update_of_ne isNew] at isMapped
          obtain ⟨below, object⟩ := sound.mapped other p isMapped
          rw [Function.update_of_ne (different other p isMapped).2]
          exact ⟨Nat.lt_succ_of_lt below, object⟩
      · intro other offset p onPage
        dsimp only
        rcases items_assign onPage with rfl | before
        · rw [Function.update_self]
          exact Function.update_self ..
        · have isMapped := sound.paged other offset p before
          rw [Function.update_of_ne (different _ p isMapped).2]
          exact kept _ p isMapped

theorem decode_result (sound : Sound decodeInst c) (word : ExtMachInst) (addr : Addr) :
    DecodeResult decodeInst c (c.decode decodeInst word addr).1 word
      (c.decode decodeInst word addr).2 := by
  have found := getPage_found sound.agrees addr
  have looked : Sound decodeInst { c with decodePages := (c.decodePages.getPage addr).1 } :=
    ⟨found.agrees, sound.mapped,
      fun page offset si onPage => sound.paged page offset si (found.items page offset si onPage)⟩
  have miss := decodeMiss_result looked (c.decodePages.getPage addr).2 word addr
  unfold BasicDecodeCache.decode
  dsimp only
  split
  · exact ⟨miss.sound, miss.returned, miss.kept⟩
  · rename_i si onPage
    split
    · rename_i hit
      have isMapped := looked.paged _ _ si onPage
      rw [hit] at isMapped
      exact ⟨looked, isMapped, fun _ _ same => same⟩
    · exact ⟨miss.sound, miss.returned, miss.kept⟩

/-- A call of `decode` as a step of a run. -/
def decodeStep (decodeInst : ExtMachInst → Inst) (c : BasicDecodeCache Inst)
    (call : ExtMachInst × Addr) : Option (BasicDecodeCache Inst) :=
  some (c.decode decodeInst call.1 call.2).1

theorem run_sound (calls : List (ExtMachInst × Addr)) (start reached : BasicDecodeCache Inst)
    (sound : Sound decodeInst start)
    (ran : run (decodeStep decodeInst) calls start = some reached) : Sound decodeInst reached := by
  induction calls generalizing start with
  | nil =>
      cases ran
      exact sound
  | cons call rest ih =>
      exact ih _ (decode_result sound call.1 call.2).sound ran

/-- After any calls of `decode`, the next one returns the instruction that
`decodeInst` makes of its very word, and the recent lookups agree with the page
map. -/
theorem decode_cache_transparent (decodeInst : ExtMachInst → Inst) (mem : InstPtr → Decoded Inst)
    (calls : List (ExtMachInst × Addr)) :
    ∀ before word addr after c, calls = before ++ (word, addr) :: after →
      run (decodeStep decodeInst) before (BasicDecodeCache.new mem) = some c →
      let result := c.decode decodeInst word addr
      result.1.mem result.2 = ⟨word, decodeInst word⟩ ∧
        c.decodePages.Agrees ∧ result.1.decodePages.Agrees := by
  intro before word addr after c _ ran
  have sound := run_sound before _ c (new_sound mem) ran
  have result := decode_result sound word addr
  exact ⟨(result.sound.mapped word _ result.returned).2, sound.agrees, result.sound.agrees⟩

theorem pristine_word_decoded_again :
    let c := ((BasicDecodeCache.new fun _ => ⟨0, 0⟩).decode id 0x43ff041f 0x120000040).1
    let result := c.decode id 0x47ff041f 0x120000040
    result.1.mem result.2 = ⟨0x47ff041f, 0x47ff041f⟩ ∧
      c.decodePages.Agrees ∧ result.1.decodePages.Agrees :=
  decode_cache_transparent id (fun _ => ⟨0, 0⟩)
    [(0x43ff041f, 0x120000040), (0x47ff041f, 0x120000040)] [(0x43ff041f, 0x120000040)]
    0x47ff041f 0x120000040 [] _ rfl rfl

end Transparency

end GemFi.DecodeCache
