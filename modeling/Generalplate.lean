import Generalplate.Malloc.TopFit
import Generalplate.Malloc.Release
import Generalplate.Malloc.Resize
import Generalplate.Lwip.Groups
import Generalplate.Lwip.MempInit
import Generalplate.Usmart.NumberText
import Generalplate.Usmart.Prototype
import Generalplate.Lwip.CommInit
import Generalplate.Usart.Lines
import Generalplate.Ethernet.TxRing
import Generalplate.Usmart.Cmd
import Generalplate.Usmart.Returns
import Generalplate.Usmart.Agree
import Generalplate.Usmart.Stored
import Generalplate.Usmart.Execute
import Generalplate.Usmart.RoundTrip
import Generalplate.Usmart.Behind
import Generalplate.Usmart.NameBuf
import Generalplate.Ethernet.Output
import Generalplate.Ethernet.Deliver
import Generalplate.Arch.Post
import Generalplate.TcpServer.Lifecycle
import Generalplate.TcpServer.Flag
import Generalplate.Usmart.ParmLen
import Generalplate.Arch.Wait
import Generalplate.System.Delay
import Generalplate.Udp.Print
import Generalplate.Udp.Thread
import Generalplate.Lcd.LineShape
import Generalplate.Lcd.Char
import Generalplate.Usmart.Passes
import Generalplate.Lcd.TextLayout
import Generalplate.Lcd.Number
import Generalplate.Httpd.Cgi
import Generalplate.Httpd.Ssi
import Generalplate.Httpd.Page
import Generalplate.Httpd.Stream
import Generalplate.Httpd.Request
import Generalplate.Lib.Slots
import Generalplate.Lib.Chain
import Generalplate.Ucos.MsgCells
import Generalplate.Lib.Replies
import Generalplate.Ucos.KernelTime
import Generalplate.Ucos.SemRun
import Generalplate.Httpd.Callbacks
import Generalplate.Httpd.Files
