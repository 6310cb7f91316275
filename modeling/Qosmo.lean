import Qosmo.A5.Keystream
import Qosmo.Armio
import Qosmo.Bsp.Dedicated
import Qosmo.Bsp.Dump
import Qosmo.Bsp.Late
import Qosmo.C54x.Addressing
import Qosmo.C54x.Block
import Qosmo.C54x.Context
import Qosmo.C54x.Divide
import Qosmo.C54x.Extension
import Qosmo.C54x.FarCall
import Qosmo.C54x.Fetch
import Qosmo.C54x.Guards
import Qosmo.C54x.Immediate
import Qosmo.C54x.LongForm
import Qosmo.C54x.LongWord
import Qosmo.C54x.Normalise
import Qosmo.C54x.Reted
import Qosmo.C54x.Rotate
import Qosmo.C54x.Saturation
import Qosmo.C54x.Timer
import Qosmo.C54x.Writa
import Qosmo.Dcch.Follow
import Qosmo.Elf.Lookup
import Qosmo.Grgsm.Cipher
import Qosmo.Grgsm.Reference
import Qosmo.Grgsm.Reset
import Qosmo.Grgsm.Speech
import Qosmo.Grgsm.Sync
import Qosmo.Inth.Rotation
import Qosmo.Iota
import Qosmo.Launch
import Qosmo.Noise.Packets
import Qosmo.Pont.Arming
import Qosmo.Pont.FrameIrq
import Qosmo.Pont.Pacer
import Qosmo.RheaDma.Stream
import Qosmo.Rif.Status
import Qosmo.Sercomm.Client
import Qosmo.Sim.Imsi
import Qosmo.Sim.Records
import Qosmo.Sim.Restart
import Qosmo.Sim.Transmission
import Qosmo.St7558
import Qosmo.Tbring
import Qosmo.Telnet
import Qosmo.Tpu.Time
import Qosmo.Trx.Autosync
import Qosmo.Uart.Line
import Qosmo.Uart.Romload
import Qosmo.Uwire
