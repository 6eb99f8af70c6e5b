import QyUtil.Async.Completion
import QyUtil.Async.Descriptors
import QyUtil.Async.Lifetime
import QyUtil.Diagnosis.ErrorRecord
import QyUtil.Diagnosis.NativeStatus
import QyUtil.Diagnosis.Served
import QyUtil.Dns.Authentic
import QyUtil.Dns.Completion
import QyUtil.Dns.Compression
import QyUtil.Dns.Framing
import QyUtil.Dns.Joining
import QyUtil.Dns.Refusal
import QyUtil.Dns.ResolvConf
import QyUtil.Dns.RoundTrip
import QyUtil.Http.Buffer
import QyUtil.Http.Connections
import QyUtil.Http.ContentLength
import QyUtil.Http.Emitted
import QyUtil.Http.Exhaustion
import QyUtil.Http.Isolation
import QyUtil.Http.Sending
import QyUtil.Http.Site
import QyUtil.Http.Splitting
import QyUtil.Http.Stopping
import QyUtil.Http.Stripping
import QyUtil.Http.Url
import QyUtil.Net.Grammar
import QyUtil.Ping.Checksum
import QyUtil.Ping.Layout
import QyUtil.Ping.LossRate
import QyUtil.Ping.Recognition
import QyUtil.Ping.Robust
import QyUtil.Ping.Splitting
import QyUtil.Ping.Times
import QyUtil.Ping.Transcript
import QyUtil.Pingback.Params
import QyUtil.TaskQueue.Liveness
import QyUtil.Trace.Attribution
import QyUtil.Trace.Command
import QyUtil.Trace.Receive
import QyUtil.Trace.ReportSize
import QyUtil.Trace.RouteByPing
