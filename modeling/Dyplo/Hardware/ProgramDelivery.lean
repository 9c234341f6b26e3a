import Dyplo.Hardware.ControlProgram
import Dyplo.Hardware.ImageConversion

/-!
# What `HardwareControl::program` delivers

From the device nodes and the blocks that the kernel grants to what the ICAP reads, for one file.
-/

namespace Dyplo

namespace DmaMapM

/-- The kernel's answers for blocks that it maps, each with the address. -/
def mapping (grants : List (InternalBlock × Nat)) : List DmaAnswer :=
  grants.flatMap fun g => [.block g.1, .mapped g.2]

variable {s : DmaMaps} {rest : List DmaAnswer} {E : DmaStop → DmaMaps → Prop}

private theorem wp_ask {answer : DmaAnswer} (h : s.answers = answer :: rest)
    {Q : DmaAnswer → DmaMaps → Prop} :
    wp ask Q E s ↔ Q answer { s with answers := rest } := by
  rw [ask, wp_bind, wp_get, h]
  change wp (set { s with answers := rest } >>= fun _ => pure answer) Q E s ↔ _
  rw [wp_bind, wp_set, wp_pure]

private theorem wp_dmaMapSingle {address size : Nat} (h : s.answers = .mapped address :: rest)
    (hne : address ≠ 0) (hnew : address ∉ s.live.map Prod.fst) {Q : Nat → DmaMaps → Prop} :
    wp (dmaMapSingle size) Q E s ↔
      Q address { s with live := s.live ++ [(address, size)], answers := rest } := by
  have hmaps : ¬ (address = 0 ∨ address ∈ s.live.map Prod.fst) := not_or.mpr ⟨hne, hnew⟩
  rw [dmaMapSingle, wp_bind, wp_ask h]
  change wp (get >>= fun s => if address = 0 ∨ address ∈ s.live.map Prod.fst then
    throw .unanswered else set { s with live := s.live ++ [(address, size)] } >>= fun _ =>
      pure address) Q E { s with answers := rest } ↔ _
  rw [wp_bind, wp_get, wp_ite, if_neg hmaps, wp_bind, wp_set, wp_pure]

private theorem wp_mapBlock {i address : Nat} {info : InternalBlock} (hi : i < s.blocks.length)
    (h : s.answers = .block info :: .mapped address :: rest) (hne : address ≠ 0)
    (hnew : address ∉ s.live.map Prod.fst) {Q : Unit → DmaMaps → Prop} :
    wp (mapBlock i) Q E s ↔ Q () { s with
      blocks := s.blocks.set i ⟨info, some address⟩
      live := s.live ++ [(address, info.size)]
      answers := rest } := by
  rw [mapBlock, wp_bind, wp_get, List.getElem?_eq_getElem hi]
  change wp (ask >>= _) _ _ _ ↔ _
  rw [wp_bind, wp_ask h]
  change wp (modify _ >>= fun _ => dmaMapSingle info.size >>= fun address => modify _) _ _ _ ↔ _
  rw [wp_bind, wp_modify, wp_bind, wp_dmaMapSingle rfl hne, wp_modify]
  · simp [DmaMaps.setBlock]
  · exact hnew

private theorem set_take_succ {α : Type} {xs : List α} {i : Nat} {a : α} (hi : i < xs.length) :
    (xs.set i a).take (i + 1) = xs.take i ++ [a] := by
  have hset : i < (xs.set i a).length := hi.trans_eq List.length_set.symm
  rw [List.take_succ_eq_append_getElem hset, List.getElem_set_self, List.take_set_of_le le_rfl]

/-- Every block gets its map. -/
theorem mapBlocks_maps {i : Nat} (grants : List (InternalBlock × Nat))
    (hlength : s.blocks.length = i + grants.length)
    (hanswers : s.answers = mapping grants ++ rest) (hne : ∀ g ∈ grants, g.2 ≠ 0)
    (hnew : (s.live.map Prod.fst ++ grants.map Prod.snd).Nodup) :
    wp (mapBlocks i grants.length)
      (fun _ t => t.blocks = s.blocks.take i ++ grants.map (fun g => ⟨g.1, some g.2⟩) ∧
        t.blocksHead = s.blocksHead)
      (fun _ _ => False) s := by
  induction grants generalizing i s with
  | nil =>
    rw [List.length_nil, Nat.add_zero] at hlength
    refine (wp_pure _).mpr ⟨?_, rfl⟩
    rw [List.take_of_length_le hlength.le]
    exact (List.append_nil _).symm
  | cons g grants ih =>
    rw [List.length_cons] at hlength
    have hi : i < s.blocks.length := by omega
    have hfirst : g.2 ∉ s.live.map Prod.fst := fun hmem =>
      (List.nodup_append.mp hnew).2.2 _ hmem _ List.mem_cons_self rfl
    have hrest : (((s.live ++ [(g.2, g.1.size)]).map Prod.fst) ++ grants.map Prod.snd).Nodup := by
      rw [List.map_append, List.append_assoc]
      exact hnew
    have hset : (s.blocks.set i ⟨g.1, some g.2⟩).length = i + 1 + grants.length := by
      rw [List.length_set]
      omega
    rw [List.length_cons, mapBlocks, wp_bind,
      wp_mapBlock hi hanswers (hne g List.mem_cons_self) hfirst]
    refine (ih hset rfl (fun g hg => hne g (List.mem_cons_of_mem _ hg)) hrest).mono ?_
      fun _ _ hf => hf
    rintro _ t ⟨hblocks, hhead⟩
    refine ⟨hblocks.trans ?_, hhead⟩
    rw [set_take_succ hi, List.append_assoc, List.map_cons, List.singleton_append]

private theorem wp_disposing {c : DmaMapM Unit} {Q : Unit → DmaMaps → Prop}
    (h : wp c Q (fun _ _ => False) s) : wp (disposing c) Q E s := by
  obtain ⟨_, t, heq, hQ⟩ := h.returns
  have hdisposing : disposing c s = .ok () t := by rw [disposing, heq]
  exact (wp_of_ok hdisposing).mpr hQ

private theorem reconfigure_maps {S : Nat} (grants : List (InternalBlock × Nat))
    (hanswers : s.answers = .configured grants.length S :: .allocated :: (mapping grants ++ rest))
    (hne : ∀ g ∈ grants, g.2 ≠ 0) (hnodup : (grants.map Prod.snd).Nodup) (hlive : s.live = [])
    (hblocks : s.blocks = []) (size count : Nat) (readonly : Bool) :
    wp (reconfigure modeCoherent size count readonly)
      (fun _ t => t.blocks = grants.map (fun g => ⟨g.1, some g.2⟩) ∧ t.blocksHead = 0)
      (fun _ _ => False) s := by
  have hunmap : s.unmap = s := by rw [DmaMaps.unmap, hblocks]; rfl
  rw [reconfigure, wp_bind, wp_modify, hunmap, wp_bind, wp_ask hanswers]
  change wp (ask >>= _) _ _ _
  rw [wp_bind, wp_ask rfl]
  change wp (modify _ >>= fun _ => disposing (mapBlocks 0 grants.length)) _ _ _
  rw [wp_bind, wp_modify]
  apply wp_disposing
  have hlength : (DmaMaps.resize { s with answers := mapping grants ++ rest } grants.length
      S).blocks.length = 0 + grants.length := by simp [DmaMaps.resize]
  refine (mapBlocks_maps grants hlength rfl hne ?_).mono ?_ fun _ _ hf => hf
  · change (s.live.map Prod.fst ++ grants.map Prod.snd).Nodup
    rw [hlive]
    exact hnodup
  · rintro _ t ⟨hblocks, hhead⟩
    exact ⟨hblocks, hhead⟩

end DmaMapM

private theorem DmaMaps.fifo_configured {maps : DmaMaps} {grants : List (InternalBlock × Nat)}
    {S : Nat}
    (hblocks : maps.blocks = grants.map fun g => ⟨g.1, some g.2⟩) (hhead : maps.blocksHead = 0)
    (hgrants : grants ≠ []) (hsize : ∀ g ∈ grants, g.1.size = S)
    (memory : Nat × Nat → List UInt8) : (maps.fifo memory).Configured S where
  blocksHead_lt := by
    rw [DmaMaps.fifo, hhead, hblocks, List.length_map, List.length_map]
    exact List.length_pos_iff.mpr hgrants
  size block hblock := by
    rw [DmaMaps.fifo, hblocks, List.map_map] at hblock
    obtain ⟨g, hg, rfl⟩ := List.mem_map.mp hblock
    exact hsize g hg

/-- The ICAP has an index, and routes to it can be set up. -/
structure RoutingDriver.Routes {δ : Type} (driver : RoutingDriver δ) : Prop where
  icapIndex d : wp driver.icapIndex (fun _ _ => True) (fun _ _ => False) d
  tellToLogic destination d : wp (driver.tellToLogic destination) (fun _ _ => True)
    (fun _ _ => False) d

private theorem RoutingDriver.ideal_routes (id : Nat) : (RoutingDriver.ideal id).Routes where
  icapIndex _ := (wp_pure _).mpr trivial
  tellToLogic _ _ := (wp_pure _).mpr trivial

namespace HardwareProgrammer

variable {δ : Type} {driver : Driver δ} {S id : Nat}

/-- An invariant with which a programmer takes images, and what the ICAP reads of each. -/
structure Carries (driver : Driver δ) (id S : Nat) (carried : List UInt8 → List UInt8)
    (I : List (List UInt8) → HardwareProgrammer δ → Prop) : Prop where
  knows {done p} (h : I done p) : p.Knows id
  same {done p q} (h : I done p) (hknows : q.Knows id) (hpq : p.SameFifos q) : I done q
  image {done p fuel content words} (h : I done p) (himage : ImageFile (· = id) S content words)
    (hfuel : content.length ≤ fuel) :
    ∃ q, fromFile driver fuel ⟨content⟩ p = .ok (words.length % 2 ^ 32) q ∧ I (done ++ [words]) q
  destroys {done p} (h : I done p) :
    ∃ q, destroy driver p = .ok () q ∧
      q.icapInput = done.flatMap carried ++ nops estimatedFifoSize

private theorem carries_padded (hdriver : driver.KeepsSize) (hreports : driver.Reports id)
    (hreliable : driver.Reliable) (hS : bufferSize ≤ S) (h8 : 8 ∣ S) (hlt : S < 2 ^ 32) :
    Carries driver id S padded fun done p => ∃ fifo, Programmed S id done fifo p where
  knows := fun ⟨_, hp⟩ => hp.knows
  same := by
    rintro done p q ⟨fifo, hp⟩ hknows hpq
    exact ⟨fifo, hknows, hp.overBlocks.of_sameFifos hpq, hp.sent, hp.aligned⟩
  image := by
    rintro done p fuel content words ⟨fifo, hp⟩ himage hfuel
    have hrun := (fromFile_sends hdriver hreports hS h8 hlt hp himage hfuel).mono
      (fun _ _ ht => ht) fun _ _ he => he hreliable
    obtain ⟨_, q, heq, rfl, hq⟩ := hrun.returns
    exact ⟨q, heq, hq⟩
  destroys := by
    rintro done p ⟨fifo, hp⟩
    obtain ⟨_, q, heq, fifo', hq, hsent, -⟩ := (destroy_sends hdriver hS h8 hp hreliable).returns
    refine ⟨q, heq, ?_⟩
    rw [icapInput, hq]
    exact hsent

private theorem carries_words (hreports : driver.Reports id) (hreliable : driver.Reliable)
    (hwrites : driver.WritesWhole) :
    Carries driver id S (fun words => words) fun done p =>
      p.Knows id ∧ OverStream done.flatten p where
  knows := And.left
  same h hknows hpq := ⟨hknows, h.2.of_sameFifos hpq⟩
  image := by
    intro done p fuel content words h himage hfuel
    have hrun := (fromFile_writes hreports hwrites h himage.bounded hfuel).mono
      (fun _ _ ht => ht) fun _ _ he => he hreliable
    obtain ⟨_, q, heq, rfl, hq⟩ := hrun.returns
    rw [List.flatten_append, List.flatten_singleton]
    exact ⟨q, heq, hq⟩
  destroys := by
    rintro done p ⟨-, hp⟩
    obtain ⟨_, q, heq, hq⟩ := (destroy_writes hreliable hwrites hp).returns
    refine ⟨q, heq, ?_⟩
    rw [icapInput, hq.dmaWriter, hq.cpuFifo, List.flatMap_id']
    rfl

end HardwareProgrammer

namespace HardwareControl

open HardwareProgrammer DmaMapM

/-- The fifo that can be had, and what reaches the ICAP of an image through it: over a DMA node
with the blocks that the kernel grants, or over a CPU fifo. -/
inductive Opens (context : HardwareContext) (nodes : DeviceNodes) (S : Nat)
    (answers : List DmaAnswer) : (List UInt8 → List UInt8) → Prop
  | dma {handle : Nat} (hopen : context.openAvailableDMA nodes oRdwr = .ok handle)
    (grants : List (InternalBlock × Nat)) (rest : List DmaAnswer) (hgrants : grants ≠ [])
    (hsize : ∀ g ∈ grants, g.1.size = S) (hne : ∀ g ∈ grants, g.2 ≠ 0)
    (hnodup : (grants.map Prod.snd).Nodup)
    (hanswers : answers =
      .configured grants.length S :: .allocated :: (mapping grants ++ rest)) :
    Opens context nodes S answers padded
  | cpu {e : Stop} {handle : Nat} (hdma : context.openAvailableDMA nodes oRdwr = .error e)
    (hopen : context.openAvailableWriteFifo nodes = .ok handle) :
    Opens context nodes S answers fun words => words

variable {δ : Type} {driver : RoutingDriver δ} {context : HardwareContext} {nodes : DeviceNodes}
  {memory : Nat × Nat → List UInt8} {S id : Nat} {s : ProgramState δ}
  {carried : List UInt8 → List UInt8}

private theorem addRouteTo_spec (hroutes : driver.Routes) (destination : Nat) (d : δ) :
    wp (addRouteTo driver destination) (fun _ _ => True) (fun _ _ => False) d := by
  rw [addRouteTo, wp_bind, wp_attempt]
  exact (hroutes.tellToLogic destination d).mono (fun _ _ _ => (wp_pure _).mpr trivial)
    fun _ _ hf => hf.elim

private theorem getIcapNodeIndex_spec (hroutes : driver.Routes) (d : δ) :
    wp (getIcapNodeIndex driver) (fun _ _ => True) (fun _ _ => False) d := by
  rw [getIcapNodeIndex, wp_bind, wp_attempt]
  exact (hroutes.icapIndex d).mono (fun _ _ _ => (wp_pure _).mpr trivial) fun _ _ hf => hf.elim

private theorem constructDMA_carries (hroutes : driver.Routes) (grants : List (InternalBlock × Nat))
    {rest : List DmaAnswer} (hgrants : grants ≠ []) (hsize : ∀ g ∈ grants, g.1.size = S)
    (hne : ∀ g ∈ grants, g.2 ≠ 0) (hnodup : (grants.map Prod.snd).Nodup)
    (hanswers : s.maps.answers =
      .configured grants.length S :: .allocated :: (mapping grants ++ rest))
    (hlive : s.maps.live = []) (hblocks : s.maps.blocks = []) (icap : Nat) :
    wp (constructDMA driver memory icap)
      (fun p t => t.icap = s.icap ∧ ∃ fifo d, p = overDMA fifo d ∧ fifo.Configured S ∧
        fifo.enqueued = [])
      (fun _ _ => False) s := by
  rw [constructDMA, wp_bind, wp_onMaps]
  refine (reconfigure_maps grants hanswers hne hnodup hlive hblocks _ _ _).mono ?_ fun _ _ hf => hf
  rintro _ maps ⟨hmapped, hhead⟩
  rw [wp_bind, wp_onDriver]
  refine (addRouteTo_spec hroutes icap _).mono ?_ fun _ _ hf => hf
  intro _ d _
  rw [wp_bind, wp_get, wp_pure]
  exact ⟨rfl, _, _, rfl, DmaMaps.fifo_configured hmapped hhead hgrants hsize memory, rfl⟩

/-- The constructor leaves a programmer that takes images. -/
theorem construct_carries (hdriver : driver.KeepsSize) (hreports : driver.Reports id)
    (hreliable : driver.Reliable) (hwrites : driver.WritesWhole) (hroutes : driver.Routes)
    (hS : bufferSize ≤ S) (h8 : 8 ∣ S) (hlt : S < 2 ^ 32)
    (hopens : Opens context nodes S s.maps.answers carried) (hlive : s.maps.live = [])
    (memory : Nat × Nat → List UInt8) :
    ∃ I, Carries driver.toDriver id S carried I ∧
      wp (construct driver context nodes memory) (fun made t => t.icap = s.icap ∧ I [] made.2)
        (fun _ _ => False) s := by
  cases hopens with
  | dma hopen grants rest hgrants hsize hne hnodup hanswers =>
    refine ⟨_, carries_padded hdriver hreports hreliable hS h8 hlt, ?_⟩
    rw [construct, wp_bind, wp_onDriver]
    refine (getIcapNodeIndex_spec hroutes _).mono ?_ fun _ _ hf => hf
    intro icap d _
    rw [hopen]
    change wp (opened _ >>= _) _ _ _
    rw [wp_bind, opened, wp_modify, wp_bind]
    refine (constructDMA_carries
      (s := ⟨_, { s.maps with blocks := [], blocksHead := 0 }, d, s.icap⟩) hroutes grants hgrants
      hsize hne hnodup hanswers hlive rfl icap).mono ?_ fun _ _ hf => hf
    rintro p t ⟨hicap, fifo, d, rfl, hfifo, hnew⟩
    rw [wp_pure]
    exact ⟨hicap, programmed_of_life hdriver hreports hreliable hS h8 hlt hfifo hnew
      ⟨.nil _, .nil⟩⟩
  | cpu hdma hopen =>
    refine ⟨_, carries_words hreports hreliable hwrites, ?_⟩
    rw [construct, wp_bind, wp_onDriver]
    refine (getIcapNodeIndex_spec hroutes _).mono ?_ fun _ _ hf => hf
    intro icap d _
    rw [hdma, hopen]
    change wp (opened _ >>= fun _ => constructCPU driver icap >>= fun programmer =>
      pure (_, programmer)) _ _ _
    rw [wp_bind, opened, wp_modify, wp_bind, constructCPU, wp_bind, wp_onDriver]
    refine (addRouteTo_spec hroutes icap _).mono ?_ fun _ _ hf => hf
    intro _ d _
    rw [wp_bind, wp_get, wp_pure, wp_pure]
    exact ⟨rfl, overStream_of_life hreports hreliable hwrites ⟨.nil _, .nil⟩⟩

variable {I : List (List UInt8) → HardwareProgrammer δ → Prop} {p : HardwareProgrammer δ}

private theorem destruct_carries {done : List (List UInt8)}
    (hcarries : Carries driver.toDriver id S carried I) (hp : I done p) (handle : Nat) :
    wp (destruct driver handle p)
      (fun _ t => t.icap = s.icap ++ (done.flatMap carried ++ nops estimatedFifoSize))
      (fun _ _ => False) s := by
  obtain ⟨q, heq, hq⟩ := hcarries.destroys hp
  rw [wp_destruct, wp_of_ok heq, hq]

private theorem programWith_image (hcarries : Carries driver.toDriver id S carried I) (hp : I [] p)
    {content words : List UInt8} (himage : ImageFile (· = id) S content words) {fuel : Nat}
    (hfuel : content.length ≤ fuel) (handle : Nat) :
    wp (programWith driver fuel ⟨content⟩ handle p)
      (fun n t => n = words.length % 2 ^ 32 ∧
        t.icap = s.icap ++ (carried words ++ nops estimatedFifoSize))
      (fun _ _ => False) s := by
  obtain ⟨q, heq, hq⟩ := hcarries.image hp himage hfuel
  rw [wp_programWith, wp_of_ok heq]
  refine (destruct_carries hcarries hq handle).mono ?_ fun _ _ hf => hf
  intro _ t ht
  rw [List.nil_append, List.flatMap_singleton] at ht
  exact ⟨rfl, ht⟩

private theorem programWith_refuses (hreports : driver.Reports id)
    (hcarries : Carries driver.toDriver id S carried I) (hp : I [] p) {content : List UInt8}
    (hrefused : Adds id S content []) (fuel handle : Nat) :
    wp (programWith driver fuel ⟨content⟩ handle p) (fun _ _ => False)
      (fun e t => e.IsException ∧ t.icap = s.icap ++ nops estimatedFifoSize) s := by
  rw [wp_programWith]
  refine (fromFile_refuses hreports (hcarries.knows hp) hrefused fuel).mono
    (fun _ _ hf => hf.elim) ?_
  rintro _ q ⟨⟨x, rfl⟩, hknows, hpq⟩
  refine (destruct_carries hcarries (hcarries.same hp hknows hpq) handle).mono ?_
    fun _ _ hf => hf.elim
  intro _ t ht
  rw [List.flatMap_nil, List.nil_append] at ht
  exact ⟨trivial, ht⟩

variable (driver context nodes memory) in
/-- An image reaches the ICAP whole and in order with the NOPs of the destructor behind it, and of
a file that is refused the ICAP gets only these. -/
theorem program_delivers (hdriver : driver.KeepsSize) (hreports : driver.Reports id)
    (hreliable : driver.Reliable) (hwrites : driver.WritesWhole) (hroutes : driver.Routes)
    (hS : bufferSize ≤ S) (h8 : 8 ∣ S) (hlt : S < 2 ^ 32)
    (hopens : Opens context nodes S s.maps.answers carried) (hlive : s.maps.live = [])
    (content : List UInt8) (fuel : Nat) (hfuel : content.length ≤ fuel) :
    (∀ words, ImageFile (· = id) S content words →
      ∃ t, program driver context nodes memory fuel ⟨content⟩ s = .ok (words.length % 2 ^ 32) t ∧
        t.icap = s.icap ++ (carried words ++ nops estimatedFifoSize)) ∧
    (Adds id S content [] →
      ∃ e t, program driver context nodes memory fuel ⟨content⟩ s = .error e t ∧ e.IsException ∧
        t.icap = s.icap ++ nops estimatedFifoSize) := by
  obtain ⟨I, hcarries, hconstruct⟩ := construct_carries hdriver hreports hreliable hwrites
    hroutes hS h8 hlt hopens hlive memory
  obtain ⟨made, u, hmade, hicap, hp⟩ := hconstruct.returns
  have hprogram : program driver context nodes memory fuel ⟨content⟩ s =
      programWith driver fuel ⟨content⟩ made.1 made.2 u := bind_of_ok hmade
  rw [hprogram, ← hicap]
  constructor
  · intro words himage
    obtain ⟨_, t, heq, rfl, ht⟩ := (programWith_image hcarries hp himage hfuel made.1).returns
    exact ⟨t, heq, ht⟩
  · intro hrefused
    obtain ⟨e, t, heq, he, ht⟩ := (programWith_refuses hreports hcarries hp hrefused fuel
      made.1).stops
    exact ⟨e, t, heq, he, ht⟩

/-- An image with an odd number of words. -/
theorem program_delivers_oneBlock :
    ∃ t, program (.ideal 7) .new allNodes (fun _ => []) 68 ⟨List.replicate 68 255⟩ oneBlock =
        .ok 68 t ∧ t.icap = padded (List.replicate 68 255) ++ nops estimatedFifoSize := by
  have hopens : Opens .new allNodes programmerBlocksize oneBlock.maps.answers padded :=
    .dma rfl [(⟨0, 0, 65536, 0, 0, 0⟩, 4096)] [] (by simp) (by simp [programmerBlocksize])
      (by simp) (by simp) rfl
  obtain ⟨hdelivers, -⟩ := program_delivers (.ideal 7) .new allNodes (fun _ => [])
    (Driver.ideal_keepsSize 7) (Driver.ideal_reports (by decide)) (Driver.ideal_reliable 7)
    (Driver.ideal_writesWhole 7) (RoutingDriver.ideal_routes 7) (by decide) (by decide) (by decide)
    hopens rfl (List.replicate 68 255) 68 (by decide)
  have himage : ImageFile (· = 7) programmerBlocksize (List.replicate 68 255)
      (List.replicate 68 255) :=
    .of_startsBin (by decide) (by decide) (by decide)
  obtain ⟨t, heq, ht⟩ := hdelivers _ himage
  exact ⟨t, heq, ht.trans (List.nil_append _)⟩

end HardwareControl

end Dyplo
